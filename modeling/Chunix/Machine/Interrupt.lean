import Chunix.Machine.Memory

/-!
# Interrupts of a 32-bit processor

An interrupt is taken through a gate of the interrupt descriptor table. From user mode the
processor changes to the stack that the task state segment names, pushes the registers that
`iret` loads again and goes on at the offset of the gate. The code of a handler is straight-line
code over the whole register file. What it pushes and pops is described by the list of the words
on the stack, `Stack`.
-/

namespace Machine

/-- The registers that a program in user mode has. -/
inductive Name
  | eax
  | ecx
  | edx
  | ebx
  | esp
  | ebp
  | esi
  | edi
  | ds
  | es
  | fs
  | gs
  | cs
  | ss
  | eip
  | eflags
deriving DecidableEq, Repr

/-- The contents of the registers. -/
abbrev File := Name → Nat

/-- The segment registers, which hold a selector of 16 bits. -/
def Name.isSeg : Name → Bool
  | ds | es | fs | gs | cs | ss => true
  | _ => false

/-- Every register holds what it has bits for. -/
structure File.Fits (f : File) : Prop where
  word : ∀ g, f g < 4294967296
  sel : ∀ g, g.isSeg = true → f g < 65536

/-- A gate of the interrupt descriptor table. -/
structure Gate where
  offset : Nat
  sel : Nat
  type : Nat
  dpl : Nat
  present : Bool
deriving DecidableEq, Repr

/-- The gate number `n` of a table of gates of eight bytes. -/
def gateAt (idt : Memory) (n : Nat) : Gate where
  offset := (idt (8 * n)).toNat + 256 * (idt (8 * n + 1)).toNat +
    65536 * (idt (8 * n + 6)).toNat + 16777216 * (idt (8 * n + 7)).toNat
  sel := (idt (8 * n + 2)).toNat + 256 * (idt (8 * n + 3)).toNat
  type := (idt (8 * n + 5)).toNat % 32
  dpl := (idt (8 * n + 5)).toNat / 32 % 4
  present := (idt (8 * n + 5)).toNat / 128 == 1

/-- The type of a 32-bit interrupt gate. -/
def interruptGate : Nat := 14

/-- The privilege level in the descriptor that a selector names. -/
def dplOf (gdt : Memory) (sel : Nat) : Nat := (gdt (sel / 8 * 8 + 5)).toNat / 32 % 4

/-- The flags after an interrupt gate: no trap flag, no interrupts, no nested task, no resume flag
and no virtual mode. -/
def maskFlags (w : Nat) : Nat :=
  w - (w / 256 % 4 * 256 + w / 16384 % 2 * 16384 + w / 65536 % 4 * 65536)

/-- The bit of `eflags` that lets interrupts in. -/
def flagIf (w : Nat) : Nat := w / 512 % 2

theorem flagIf_maskFlags (w : Nat) : flagIf (maskFlags w) = 0 := by
  unfold flagIf maskFlags
  omega

/-- A word pushed on the stack. -/
def pushWord (tr : Nat → Nat) (w : Nat) (s : File × Memory) : File × Memory :=
  let sp := u32 (s.1 .esp + 4294967292)
  (Function.update s.1 .esp sp, store32 s.2 (tr sp) w)

/-- Words pushed one after the other. -/
def pushWords (tr : Nat → Nat) (ws : List Nat) (s : File × Memory) : File × Memory :=
  ws.foldl (fun s w => pushWord tr w s) s

/-- What of a word fits a register. -/
def narrow (g : Name) (w : Nat) : Nat := if g.isSeg then w % 65536 else w

/-- A word popped into a register, or skipped. -/
def popSlot (tr : Nat → Nat) (o : Option Name) (s : File × Memory) : File × Memory :=
  let f := Function.update s.1 .esp (u32 (s.1 .esp + 4))
  match o with
  | some g => (Function.update f g (narrow g (load32 s.2 (tr (s.1 .esp)))), s.2)
  | none => (f, s.2)

/-- Words popped one after the other. -/
def popSlots (tr : Nat → Nat) (l : List (Option Name)) (s : File × Memory) : File × Memory :=
  l.foldl (fun s o => popSlot tr o s) s

theorem popSlots_append (tr : Nat → Nat) (l l' : List (Option Name)) (s : File × Memory) :
    popSlots tr (l ++ l') s = popSlots tr l' (popSlots tr l s) := List.foldl_append

/-- A segment register that user mode may not use is cleared on the way there. -/
def dropSegs (gdt : Memory) (f : File) : File := fun g =>
  if g = .ds ∨ g = .es ∨ g = .fs ∨ g = .gs then
    if dplOf gdt (f g) < f .cs % 4 then 0 else f g
  else f g

theorem dropSegs_eq {gdt : Memory} {f : File}
    (h : ∀ g, g = .ds ∨ g = .es ∨ g = .fs ∨ g = .gs → f .cs % 4 ≤ dplOf gdt (f g)) :
    dropSegs gdt f = f := by
  funext g
  unfold dropSegs
  split
  · exact if_neg (Nat.not_lt.2 (h g ‹_›))
  · rfl

/-- The return from an interrupt. The stack pointer is loaded too when the return is to a level
of less privilege. -/
def iret (gdt : Memory) (tr : Nat → Nat) (s : File × Memory) : File × Memory :=
  let s₁ := popSlots tr [some .eip, some .cs, some .eflags] s
  if s.1 .cs % 4 < s₁.1 .cs % 4 then
    let esp := load32 s₁.2 (tr (s₁.1 .esp))
    let ss := load32 s₁.2 (tr (u32 (s₁.1 .esp + 4))) % 65536
    (dropSegs gdt (Function.update (Function.update s₁.1 .esp esp) .ss ss), s₁.2)
  else s₁

/-- The instructions of the interrupt handlers. -/
inductive Op
  | push (g : Name)
  | pushImm (w : Nat)
  | pop (g : Name)
  | pushal
  | popal
  | add (n : Nat)
  | sub (n : Nat)
  | movAx (w : Nat)
  | movSeg (g : Name)
  | ret
  | iret
deriving DecidableEq, Repr

/-- The effect of one instruction. A push of a segment register pushes the selector as a word;
`add` and `sub` change the stack pointer. -/
def Op.exec (gdt : Memory) (tr : Nat → Nat) : Op → File × Memory → File × Memory
  | push g, s => pushWord tr (s.1 g) s
  | pushImm w, s => pushWord tr w s
  | pop g, s => popSlot tr (some g) s
  | pushal, s => pushWords tr
      ([Name.eax, .ecx, .edx, .ebx, .esp, .ebp, .esi, .edi].map s.1) s
  | popal, s => popSlots tr
      [some .edi, some .esi, some .ebp, none, some .ebx, some .edx, some .ecx, some .eax] s
  | add n, s => (Function.update s.1 .esp (u32 (s.1 .esp + n)), s.2)
  | sub n, s => (Function.update s.1 .esp (u32 (s.1 .esp + 4294967296 - n)), s.2)
  | movAx w, s => (Function.update s.1 .eax (s.1 .eax / 65536 * 65536 + w), s.2)
  | movSeg g, s => (Function.update s.1 g (s.1 .eax % 65536), s.2)
  | ret, s => popSlot tr (some .eip) s
  | iret, s => Machine.iret gdt tr s

/-- The effect of a sequence of instructions. -/
def execOps (gdt : Memory) (tr : Nat → Nat) (is : List Op) (s : File × Memory) : File × Memory :=
  is.foldl (fun s i => i.exec gdt tr s) s

theorem execOps_cons (gdt : Memory) (tr : Nat → Nat) (i : Op) (is : List Op) (s : File × Memory) :
    execOps gdt tr (i :: is) s = execOps gdt tr is (i.exec gdt tr s) := rfl

theorem execOps_append (gdt : Memory) (tr : Nat → Nat) (is js : List Op) (s : File × Memory) :
    execOps gdt tr (is ++ js) s = execOps gdt tr js (execOps gdt tr is s) := List.foldl_append

/-- Three words skipped at once. -/
theorem exec_add_twelve (gdt : Memory) (tr : Nat → Nat) (s : File × Memory) :
    (Op.add 0xC).exec gdt tr s = popSlots tr [none, none, none] s := by
  have hsp : u32 (u32 (u32 (s.1 .esp + 4) + 4) + 4) = u32 (s.1 .esp + 12) := by
    unfold u32
    omega
  simp [Op.exec, popSlots, popSlot, hsp]

/-- A sequence of pushes of registers other than the stack pointer. -/
theorem execOps_push (gdt : Memory) {tr : Nat → Nat} {gs : List Name} (h : Name.esp ∉ gs)
    (s : File × Memory) : execOps gdt tr (gs.map .push) s = pushWords tr (gs.map s.1) s := by
  induction gs generalizing s with
  | nil => rfl
  | cons g gs ih =>
      have hgs : Name.esp ∉ gs := fun he => h (List.mem_cons_of_mem g he)
      rw [List.map_cons, execOps_cons, ih hgs]
      have hmap : gs.map ((Op.push g).exec gdt tr s).1 = gs.map s.1 := by
        refine List.map_congr_left fun g' hg' => ?_
        have hne : g' ≠ .esp := by
          rintro rfl
          exact hgs hg'
        exact Function.update_of_ne hne _ _
      rw [hmap]
      rfl

/-- What the processor takes an interrupt with: the two descriptor tables and the stack for the
kernel in the task state segment. -/
structure Tables where
  idt : Memory
  gdt : Memory
  esp0 : Nat
  ss0 : Nat

/-- The processor takes the interrupt `n` through the table, with an error code or without.
`soft` is an interrupt that the program asked for, which the gate has to allow. There is no
result when this is refused, which is another interrupt. -/
def deliver (t : Tables) (tr : Nat → Nat) (n : Nat) (err : Option Nat) (soft : Bool)
    (s : File × Memory) : Option (File × Memory) :=
  let gate := gateAt t.idt n
  let cpl := s.1 .cs % 4
  let level := dplOf t.gdt gate.sel
  if gate.present = false ∨ gate.type ≠ interruptGate ∨ (soft = true ∧ gate.dpl < cpl) ∨
      cpl < level then none
  else
    -- A change of the level is a change of the stack.
    let s₁ := if level < cpl then
        pushWords tr [s.1 .ss, s.1 .esp]
          (Function.update (Function.update s.1 .esp t.esp0) .ss t.ss0, s.2)
      else s
    let s₂ := pushWords tr ([s.1 .eflags, s.1 .cs, s.1 .eip] ++ err.toList) s₁
    some (Function.update (Function.update (Function.update s₂.1 .eflags
      (maskFlags (s.1 .eflags))) .cs (gate.sel / 4 * 4 + level)) .eip gate.offset, s₂.2)

/-- The addresses from `lo` up to `hi` are translated by one distance. -/
structure Direct (tr : Nat → Nat) (lo hi off : Nat) : Prop where
  eq : ∀ a, lo ≤ a → a < hi → tr a + off = a
  high : hi ≤ 4294967296

/-- The words on the stack from `a` on. -/
def Stack (tr : Nat → Nat) (m : Memory) (a : Nat) (ws : List Nat) : Prop :=
  ∀ i w, ws[i]? = some w → load32 m (tr (a + 4 * i)) = w

section

variable {tr : Nat → Nat} {lo hi off a : Nat} {m : Memory} {s : File × Memory} {ws : List Nat}

theorem Stack.nil : Stack tr m a [] := fun i w h => by simp at h

theorem Direct.store (h : Direct tr lo hi off) {b w : Nat} (ha : lo ≤ a) (ha' : a + 4 ≤ hi)
    (hb : lo ≤ b) (hb' : b < hi) (hab : b < a ∨ a + 4 ≤ b) :
    store32 m (tr a) w (tr b) = m (tr b) := by
  have hta := h.eq a ha (by omega)
  have htb := h.eq b hb hb'
  have hhigh := h.high
  exact store32_apply_of_lt_or_ge (by omega) (by omega)

theorem Direct.load_store (h : Direct tr lo hi off) {b w : Nat} (ha : lo ≤ a) (ha' : a + 4 ≤ hi)
    (hb : lo ≤ b) (hb' : b + 4 ≤ hi) (hab : b + 4 ≤ a ∨ a + 4 ≤ b) :
    load32 (store32 m (tr a) w) (tr b) = load32 m (tr b) := by
  have hta := h.eq a ha (by omega)
  have htb := h.eq b hb (by omega)
  have hhigh := h.high
  exact load32_store32_of_disjoint (by omega) (by omega) (by omega)

/-- A word is determined by its bytes, read through the translation. -/
theorem Direct.load_congr (h : Direct tr lo hi off) {m' : Memory} (ha : lo ≤ a) (ha' : a + 4 ≤ hi)
    (hm : ∀ b, a ≤ b → b < a + 4 → m' (tr b) = m (tr b)) : load32 m' (tr a) = load32 m (tr a) := by
  have hhigh := h.high
  have hta := h.eq a ha (by omega)
  refine load32_congr_range (by omega) fun x hx hx' => ?_
  have htx := h.eq (x + off) (by omega) (by omega)
  have := hm (x + off) (by omega) (by omega)
  rwa [show tr (x + off) = x by omega] at this

/-- The words `ws` were pushed below `top` on the memory `m₀`: the stack pointer is at `a`, the
other registers are those of `f`, and no other byte was written. -/
structure Pushing (tr : Nat → Nat) (off : Nat) (m₀ : Memory) (top : Nat) (f : File) (a : Nat)
    (ws : List Nat) (s : File × Memory) : Prop where
  esp : s.1 .esp = a
  regs : ∀ g, g ≠ .esp → s.1 g = f g
  len : a + 4 * ws.length = top
  stack : Stack tr s.2 a ws
  other : ∀ p, p + off < a ∨ top ≤ p + off → s.2 p = m₀ p

variable {m₀ : Memory} {top : Nat} {f : File}

theorem Pushing.start {f' : File} (h : f' .esp = top) (hf : ∀ g, g ≠ .esp → f' g = f g) :
    Pushing tr off m top f top [] (f', m) :=
  ⟨h, hf, rfl, Stack.nil, fun _ _ => rfl⟩

theorem Pushing.pushWord (hd : Direct tr lo hi off) (h : Pushing tr off m₀ top f a ws s)
    (hlo : lo + 4 ≤ a) (htop : top ≤ hi) {w : Nat} (hw : w < 4294967296) :
    Pushing tr off m₀ top f (a - 4) (w :: ws) (pushWord tr w s) := by
  have hhigh := hd.high
  have hlen := h.len
  have hsp : u32 (s.1 .esp + 4294967292) = a - 4 := by
    rw [h.esp]
    unfold u32
    omega
  have hoff := hd.eq (a - 4) (by omega) (by omega)
  simp only [Machine.pushWord, hsp]
  refine ⟨by simp, ?_, ?_, ?_, ?_⟩
  · intro g hg
    exact (Function.update_of_ne hg _ _).trans (h.regs g hg)
  · rw [List.length_cons]
    omega
  · intro i v hi
    cases i with
    | zero =>
        cases hi
        rw [Nat.mul_zero, Nat.add_zero, load32_store32_self, u32_eq_self hw]
    | succ i =>
        have hlt := (List.getElem?_eq_some_iff.1 hi).1
        rw [List.length_cons] at hlt
        rw [show a - 4 + 4 * (i + 1) = a + 4 * i by omega,
          hd.load_store (by omega) (by omega) (by omega) (by omega) (by omega)]
        exact h.stack i v hi
  · intro p hp
    exact (store32_apply_of_lt_or_ge (by omega) (by omega)).trans (h.other p (by omega))

theorem Pushing.pushWords (hd : Direct tr lo hi off) (h : Pushing tr off m₀ top f a ws s)
    {l : List Nat} (hlo : lo + 4 * l.length ≤ a) (htop : top ≤ hi)
    (hw : ∀ w ∈ l, w < 4294967296) :
    Pushing tr off m₀ top f (a - 4 * l.length) (l.reverse ++ ws) (pushWords tr l s) := by
  induction l generalizing a ws s with
  | nil => exact h
  | cons w l ih =>
      obtain ⟨hw₁, hw⟩ := List.forall_mem_cons.1 hw
      rw [List.length_cons] at hlo ⊢
      have h₁ := ih (h.pushWord hd (by omega) htop hw₁) (by omega) hw
      rw [List.reverse_cons, List.append_assoc, List.singleton_append,
        show a - 4 * (l.length + 1) = a - 4 - 4 * l.length by omega]
      exact h₁

/-- Room left on the stack without a write. -/
theorem Pushing.skip (hd : Direct tr lo hi off) (h : Pushing tr off m₀ top f a ws s)
    (hlo : lo + 4 ≤ a) (htop : top ≤ hi) (gdt : Memory) :
    Pushing tr off m₀ top f (a - 4) (load32 m₀ (tr (a - 4)) :: ws) ((Op.sub 4).exec gdt tr s) := by
  have hhigh := hd.high
  have hlen := h.len
  have hsp : u32 (s.1 .esp + 4294967296 - 4) = a - 4 := by
    rw [h.esp]
    unfold u32
    omega
  have hoff := hd.eq (a - 4) (by omega) (by omega)
  simp only [Op.exec, hsp]
  refine ⟨by simp, ?_, ?_, ?_, ?_⟩
  · intro g hg
    exact (Function.update_of_ne hg _ _).trans (h.regs g hg)
  · rw [List.length_cons]
    omega
  · intro i v hi
    cases i with
    | zero =>
        cases hi
        rw [Nat.mul_zero, Nat.add_zero]
        exact load32_congr_range (by omega) fun x hx hx' => h.other x (by omega)
    | succ i =>
        rw [show a - 4 + 4 * (i + 1) = a + 4 * i by omega]
        exact h.stack i v hi
  · intro p hp
    exact h.other p (by omega)

/-- A change of another register than the stack pointer. -/
theorem Pushing.update (h : Pushing tr off m₀ top f a ws s) {g : Name} (hg : g ≠ .esp) (v : Nat) :
    Pushing tr off m₀ top (Function.update f g v) a ws (Function.update s.1 g v, s.2) := by
  refine ⟨?_, ?_, h.len, h.stack, h.other⟩
  · exact (Function.update_of_ne (Ne.symm hg) _ _).trans h.esp
  · intro g' hg'
    change Function.update s.1 g v g' = _
    by_cases he : g' = g
    · rw [he, Function.update_self, Function.update_self]
    · rw [Function.update_of_ne he, Function.update_of_ne he, h.regs g' hg']

/-- The registers after an interrupt through the gate, up to the stack pointer. -/
def enterRegs (f : File) (gate : Gate) (level ss0 : Nat) : File :=
  Function.update (Function.update (Function.update (Function.update f .ss ss0) .eflags
    (maskFlags (f .eflags))) .cs (gate.sel / 4 * 4 + level)) .eip gate.offset

/-- An interrupt that takes the processor to a level of more privilege: what `iret` needs for the
way back is on the stack of that level. -/
theorem deliver_inner (hd : Direct tr lo hi off) {t : Tables} {gate : Gate} {n : Nat}
    {err : Option Nat} {soft : Bool} (hgate : gateAt t.idt n = gate) (hpresent : gate.present = true)
    (htype : gate.type = interruptGate) (hsoft : soft = true → f .cs % 4 ≤ gate.dpl)
    (hlevel : dplOf t.gdt gate.sel < f .cs % 4) (hf : f.Fits) (herr : ∀ e ∈ err, e < 4294967296)
    (hlo : lo + 24 ≤ t.esp0) (hhi : t.esp0 ≤ hi) :
    ∃ s, deliver t tr n err soft (f, m) = some s ∧
      Pushing tr off m t.esp0 (enterRegs f gate (dplOf t.gdt gate.sel) t.ss0)
        (t.esp0 - 4 * (5 + err.toList.length))
        (err.toList ++ [f .eip, f .cs, f .eflags, f .esp, f .ss]) s := by
  have hlen : err.toList.length ≤ 1 := by cases err <;> simp
  have h₀ : Pushing tr off m t.esp0 (Function.update f .ss t.ss0) t.esp0 []
      (Function.update (Function.update f .esp t.esp0) .ss t.ss0, m) := by
    refine Pushing.start (by simp) fun g hg => ?_
    by_cases hss : g = .ss
    · rw [hss, Function.update_self, Function.update_self]
    · rw [Function.update_of_ne hss, Function.update_of_ne hg, Function.update_of_ne hss]
  have h₁ := h₀.pushWords hd (l := [f .ss, f .esp])
    (by simp only [List.length_cons, List.length_nil]; omega) hhi (by simp [hf.word])
  have h₂ := h₁.pushWords hd (l := [f .eflags, f .cs, f .eip] ++ err.toList)
    (by simp only [List.length_append, List.length_cons, List.length_nil]; omega) hhi (by
      intro w hw
      simp only [List.mem_append, List.mem_cons, List.not_mem_nil, or_false,
        Option.mem_toList] at hw
      rcases hw with (rfl | rfl | rfl) | hw
      · exact hf.word _
      · exact hf.word _
      · exact hf.word _
      · exact herr w hw)
  have h₃ := ((h₂.update (g := .eflags) (by decide) (maskFlags (f .eflags))).update (g := .cs)
    (by decide) (gate.sel / 4 * 4 + dplOf t.gdt gate.sel)).update (g := .eip) (by decide)
    gate.offset
  have hpass : ¬ (gate.present = false ∨ gate.type ≠ interruptGate ∨
      (soft = true ∧ gate.dpl < f .cs % 4) ∨ f .cs % 4 < dplOf t.gdt gate.sel) := by
    rintro (h | h | ⟨hs, h⟩ | h)
    · exact absurd (hpresent.symm.trans h) (by decide)
    · exact h htype
    · exact absurd (hsoft hs) (by omega)
    · omega
  generalize hs₁ : pushWords tr [f .ss, f .esp]
    (Function.update (Function.update f .esp t.esp0) .ss t.ss0, m) = s₁ at h₃
  generalize hs₂ : pushWords tr ([f .eflags, f .cs, f .eip] ++ err.toList) s₁ = s₂ at h₃
  refine ⟨(Function.update (Function.update (Function.update s₂.1 .eflags (maskFlags (f .eflags)))
    .cs (gate.sel / 4 * 4 + dplOf t.gdt gate.sel)) .eip gate.offset, s₂.2), ?_, ?_⟩
  · simp only [deliver, hgate]
    rw [if_neg hpass, if_pos hlevel, hs₁, hs₂]
  · cases err with
    | none => exact h₃
    | some e => exact h₃

theorem File.Fits.narrow_eq (h : f.Fits) (g : Name) : narrow g (f g) = f g := by
  unfold narrow
  split
  · exact Nat.mod_eq_of_lt (h.sel g ‹_›)
  · rfl

/-- The words from the stack pointer on were popped. -/
structure Popped (tr : Nat → Nat) (l : List (Option Name)) (s s' : File × Memory) : Prop where
  esp : s'.1 .esp = s.1 .esp + 4 * l.length
  mem : s'.2 = s.2
  loaded : ∀ i g, l[i]? = some (some g) →
    s'.1 g = narrow g (load32 s.2 (tr (s.1 .esp + 4 * i)))
  other : ∀ g, some g ∉ l → g ≠ .esp → s'.1 g = s.1 g

theorem popSlot_popped {o : Option Name} (hesp : some .esp ≠ o)
    (hhi : s.1 .esp + 4 < 4294967296) : Popped tr [o] s (popSlot tr o s) := by
  have hsp : u32 (s.1 .esp + 4) = s.1 .esp + 4 := u32_eq_self hhi
  cases o with
  | none =>
      refine ⟨?_, rfl, fun i g h => ?_, fun g _ hg => Function.update_of_ne hg _ _⟩
      · simp [popSlot, hsp]
      · cases i <;> simp at h
  | some g =>
      have hne : Name.esp ≠ g := fun he => hesp (congrArg some he)
      refine ⟨?_, rfl, fun i g' h => ?_, fun g' hg' he => ?_⟩
      · simp [popSlot, hsp, Function.update_of_ne hne]
      · cases i with
        | zero =>
            cases h
            simp [popSlot]
        | succ i => simp at h
      · have hg : g' ≠ g := fun he => hg' (by rw [he]; exact List.mem_singleton_self _)
        exact (Function.update_of_ne hg _ _).trans (Function.update_of_ne he _ _)

theorem popSlots_popped {l : List (Option Name)} (hesp : some .esp ∉ l)
    (hnodup : (l.filterMap id).Nodup) (hhi : s.1 .esp + 4 * l.length < 4294967296) :
    Popped tr l s (popSlots tr l s) := by
  induction l generalizing s with
  | nil => exact ⟨rfl, rfl, fun i g h => by simp at h, fun _ _ _ => rfl⟩
  | cons o l ih =>
      rw [List.length_cons] at hhi
      have h₁ : Popped tr [o] s (popSlot tr o s) :=
        popSlot_popped (fun he => hesp (he ▸ List.mem_cons_self)) (by omega)
      have hsp : (popSlot tr o s).1 .esp = s.1 .esp + 4 := h₁.esp
      have hnodup' : (l.filterMap id).Nodup := by
        cases o with
        | none => exact hnodup
        | some g => exact (List.nodup_cons.1 hnodup).2
      have h := ih (s := popSlot tr o s) (fun he => hesp (List.mem_cons_of_mem o he)) hnodup'
        (by omega)
      refine ⟨?_, h.mem.trans h₁.mem, ?_, ?_⟩
      · rw [List.length_cons, show 4 * (l.length + 1) = 4 + 4 * l.length by omega,
          ← Nat.add_assoc, ← hsp]
        exact h.esp
      · intro i g hi
        cases i with
        | zero =>
            cases hi
            have hg : some g ∉ l := by
              intro hmem
              exact (List.nodup_cons.1 hnodup).1 (List.mem_filterMap.2 ⟨some g, hmem, rfl⟩)
            exact (h.other g hg fun he => hesp (he ▸ List.mem_cons_self)).trans (h₁.loaded 0 g rfl)
        | succ i =>
            have hl := h.loaded i g hi
            rw [hsp, h₁.mem, Nat.add_assoc, show 4 + 4 * i = 4 * (i + 1) by omega] at hl
            exact hl
      · intro g hg he
        obtain ⟨hg₁, hg₂⟩ := not_or.1 (List.mem_cons.not.1 hg)
        exact (h.other g hg₂ he).trans (h₁.other g (by simpa using hg₁) he)

end

end Machine
