import Mathlib.Data.BitVec
import Mathlib.Logic.Function.Basic

/-!
# The modifier keys

`read_kbd` takes one byte from the keyboard and keeps the state of the modifier keys
in the bits of `flag`, one bit for the two keys of a modifier. Right Ctrl and right Alt
come with the prefix `0xE0`. The bit is that of the last key of the modifier that was
pressed or released, so it is right as long as no key is released while the other one
is held.
-/

namespace Chunix

namespace Kbd

/-- The variable `flag` of `read_kbd`. -/
abbrev Flag := BitVec 32

def shift : Flag := 1

def ctl : Flag := 2

def alt : Flag := 4

def capslock : Flag := 8

def numlock : Flag := 16

def scrolllock : Flag := 32

def e0esc : Flag := 64

/-- The codes of the characters of a string. -/
def codes (s : String) : List Nat := s.toList.map Char.toNat

/-- The macro `C`. -/
def ctrl (s : String) : List Nat := (codes s).map fun c => (c + 256 - 64) % 256

/-- `norm_map`. The code `0xF10` of the key F10 is cut to eight bits. -/
def normMap : List Nat :=
  [0, 0] ++ codes "1234567890-=\x08\t" ++ codes "qwertyuiop[]\n" ++ [0] ++ codes "asdfghjkl;'`" ++
    [0] ++ codes "\\zxcvbnm,./" ++ [0] ++ codes "*" ++ [0] ++ codes " " ++ [0] ++
    [0xF1, 0xF2, 0xF3, 0xF4, 0xF5, 0xF6, 0xF7, 0xF8, 0xF9, 0x10]

def shiftMap : List Nat :=
  [0, 0] ++ codes "!@#$%^&*()_+\x08\t" ++ codes "QWERTYUIOP\x7b\x7d\n" ++ [0] ++
    codes "ASDFGHJKL:\"~" ++ [0] ++ codes "|ZXCVBNM<>?" ++ [0] ++ codes "*" ++ [0] ++ codes " "

def ctrlMap : List Nat :=
  List.replicate 16 0 ++ ctrl "QWERTYUIOP" ++ [0, 0] ++ codes "\r" ++ [0] ++ ctrl "ASDFGHJKL" ++
    [0, 0, 0, 0] ++ ctrl "\\ZXCVBNM" ++ [0, 0] ++ ctrl "/" ++ [0, 0]

/-- `e0_map`. -/
def e0Map (sc : Nat) : Nat :=
  match sc with
  | 0x1C => 0x0A
  | 0x1D => 0xEC
  | 0x35 => 0x2F
  | 0x38 => 0xED
  | 0x48 => 0xE2
  | 0x47 => 0xE0
  | 0x49 => 0xE6
  | 0x4B => 0xE4
  | 0x4D => 0xE5
  | 0x4F => 0xE1
  | 0x50 => 0xE3
  | 0x51 => 0xE7
  | 0x52 => 0xE8
  | 0x53 => 0xE9
  | 0x5B => 0xEA
  | 0x5C => 0xEB
  | _ => 0

def shiftmap (sc : Nat) : Flag :=
  match sc with
  | 0x1D => ctl
  | 0x2A => shift
  | 0x36 => shift
  | 0x38 => alt
  | _ => 0

def togglemap (sc : Nat) : Flag :=
  match sc with
  | 0x3A => capslock
  | 0x45 => numlock
  | 0x46 => scrolllock
  | _ => 0

/-- `kb_map`. -/
def kbMap (flag : Flag) : List Nat :=
  if flag = 0 then normMap else if flag = shift then shiftMap else ctrlMap

/-- The end of `read_kbd`: the character of a key, as a value of type `char`. -/
def charOf (flag : Flag) (sc : Nat) : Int :=
  let val := (kbMap (flag &&& (ctl ||| shift))).getD sc 0
  let val : Int := if val < 128 then val else val - 256
  if flag &&& capslock ≠ 0 then
    if 0x61 ≤ val ∧ val ≤ 0x7A then val - 32
    else if 0x41 ≤ val ∧ val ≤ 0x5A then val + 32
    else val
  else val

/-- `read_kbd` with the byte that the keyboard has, if it has one: the result and the
value of `flag` behind the call. -/
def readKbd (data : Option (BitVec 8)) (flag : Flag) : Int × Flag :=
  match data with
  | none => (-1, flag)
  | some data =>
      let sc := data.toNat
      let low := sc % 128
      if sc = 0xE0 then (0, flag ||| e0esc)
      else if 0x80 ≤ sc then (0, flag &&& ~~~(shiftmap low ||| e0esc))
      else
        let e0Flag := flag &&& e0esc ≠ 0
        let flag := if e0Flag then flag &&& ~~~e0esc else flag
        let flag := (flag ||| shiftmap low) ^^^ togglemap low
        (if e0Flag then e0Map low else charOf flag low, flag)

example : (readKbd (some 0x1E) shift).1 = 0x41 := by decide

/-- A key of the keyboard: its code and whether it comes with the prefix. The code
`0x60` would be released by the prefix itself, and no key has the codes of the shift
keys with the prefix. -/
structure Key where
  ext : Bool
  code : Fin 128
  ne_escape : code ≠ 0x60
  not_shift : ext = true → code ≠ 0x2A ∧ code ≠ 0x36
deriving DecidableEq

/-- The modifiers. -/
inductive Modifier
  | shift
  | ctl
  | alt
deriving DecidableEq, Repr

/-- The number of the bit of a modifier in `flag`. -/
def Modifier.index : Modifier → Nat
  | shift => 0
  | ctl => 1
  | alt => 2

/-- The bit of a modifier. -/
def Modifier.bit : Modifier → Flag
  | shift => Kbd.shift
  | ctl => Kbd.ctl
  | alt => Kbd.alt

/-- The modifier that the key with a code is for: Ctrl and Alt on both sides, and the
two keys Shift. -/
def modifierOf (code : Fin 128) : Option Modifier :=
  if code = 0x1D then some .ctl
  else if code = 0x2A ∨ code = 0x36 then some .shift
  else if code = 0x38 then some .alt
  else none

def Key.modifier (k : Key) : Option Modifier := modifierOf k.code

/-- What is done with a key. -/
inductive Ev
  | press (k : Key)
  | release (k : Key)
deriving DecidableEq

/-- The bytes that a key sends. -/
def Key.bytes (k : Key) (sc : Nat) : List (BitVec 8) :=
  (if k.ext then [0xE0] else []) ++ [BitVec.ofNat 8 sc]

/-- The bytes of an event. -/
def Ev.bytes : Ev → List (BitVec 8)
  | .press k => k.bytes k.code
  | .release k => k.bytes (k.code + 128)

/-- The calls of `read_kbd` for some bytes. -/
def readBytes (bs : List (BitVec 8)) (flag : Flag) : Flag :=
  bs.foldl (fun flag b => (readKbd (some b) flag).2) flag

/-- The value of `flag` after the events. -/
def flagAfter (es : List Ev) : Flag := es.foldl (fun flag e => readBytes e.bytes flag) 0

/-- The keys that are held after an event. -/
def Ev.holds (held : Key → Bool) : Ev → Key → Bool
  | .press k => Function.update held k true
  | .release k => Function.update held k false

/-- The keys that are held after the events. -/
def heldAfter (es : List Ev) : Key → Bool := es.foldl Ev.holds fun _ => false

/-- The bits tell which modifiers are held, and no prefix is pending. -/
structure Tracked (es : List Ev) : Prop where
  bits : ∀ m : Modifier, flagAfter es &&& m.bit ≠ 0 ↔
    ∃ k : Key, k.modifier = some m ∧ heldAfter es k = true
  settled : flagAfter es &&& e0esc = 0

section

variable {flag : Flag} {k : Key} {m : Modifier} {es : List Ev}

theorem and_bit_ne_zero (flag : Flag) (m : Modifier) :
    flag &&& m.bit ≠ 0 ↔ flag.getLsbD m.index = true := by
  have hbit : m.bit = BitVec.twoPow 32 m.index := by
    cases m <;> decide
  have hne : BitVec.twoPow 32 m.index ≠ 0 := by
    cases m <;> decide
  rw [hbit, BitVec.and_twoPow]
  cases flag.getLsbD m.index with
  | false => simp
  | true => simpa using hne

theorem and_e0esc_eq_zero (flag : Flag) : flag &&& e0esc = 0 ↔ flag.getLsbD 6 = false := by
  have hbit : e0esc = BitVec.twoPow 32 6 := by decide
  have hne : BitVec.twoPow 32 6 ≠ 0 := by decide
  rw [hbit, BitVec.and_twoPow]
  cases flag.getLsbD 6 with
  | false => simp
  | true => simpa using hne

/-- The bits of `shiftmap` are those of the modifiers. -/
theorem shiftmap_bit (c : Fin 128) (m : Modifier) :
    (shiftmap c).getLsbD m.index = decide (modifierOf c = some m) := by
  revert c
  cases m <;> decide

theorem shiftmap_e0esc (c : Fin 128) : (shiftmap c).getLsbD 6 = false := by
  revert c
  decide

/-- The lock keys have bits of their own. -/
theorem togglemap_bit (c : Fin 128) : (togglemap c).getLsbD 6 = false ∧
    ∀ m : Modifier, (togglemap c).getLsbD m.index = false := by
  refine ⟨?_, fun m => ?_⟩
  · revert c
    decide
  · revert c
    cases m <;> decide

/-- The byte of a key that is pressed. -/
theorem readKbd_press (c : Fin 128) (flag : Flag) :
    (readKbd (some (BitVec.ofNat 8 c)) flag).2 =
      ((flag &&& ~~~e0esc) ||| shiftmap c) ^^^ togglemap c := by
  have hc := c.isLt
  have hsc : (BitVec.ofNat 8 c).toNat = c := by
    rw [BitVec.toNat_ofNat]
    omega
  have hlow : c.val % 128 = c.val := Nat.mod_eq_of_lt hc
  have hclear : (if flag &&& e0esc ≠ 0 then flag &&& ~~~e0esc else flag) = flag &&& ~~~e0esc := by
    by_cases hpending : flag &&& e0esc ≠ 0
    · rw [if_pos hpending]
    · rw [if_neg hpending]
      rw [not_not, and_e0esc_eq_zero] at hpending
      refine BitVec.eq_of_getLsbD_eq fun i hi => ?_
      have hbit : e0esc = BitVec.twoPow 32 6 := by decide
      rw [hbit, BitVec.getLsbD_and, BitVec.getLsbD_not, BitVec.getLsbD_twoPow]
      by_cases h6 : i = 6
      · rw [h6, hpending, Bool.false_and]
      · simp [Ne.symm h6, hi]
  rw [readKbd]
  simp only [hsc, hlow]
  rw [if_neg (by omega), if_neg (by omega)]
  dsimp only
  rw [hclear]

/-- The byte of a key that is released. -/
theorem readKbd_release {c : Fin 128} (hc : c ≠ 0x60) (flag : Flag) :
    (readKbd (some (BitVec.ofNat 8 (c + 128))) flag).2 = flag &&& ~~~(shiftmap c ||| e0esc) := by
  have hlt := c.isLt
  have hne : c.val ≠ 0x60 := fun he => hc (Fin.ext he)
  have hsc : (BitVec.ofNat 8 (c + 128)).toNat = c + 128 := by
    rw [BitVec.toNat_ofNat]
    omega
  have hlow : (c.val + 128) % 128 = c.val := by omega
  rw [readKbd]
  simp only [hsc, hlow]
  rw [if_neg (by omega), if_pos (by omega)]

/-- The prefix is pending, or not. -/
theorem readBytes_bytes (k : Key) (sc : Nat) (flag : Flag) : ∃ flag' : Flag,
    readBytes (k.bytes sc) flag = (readKbd (some (BitVec.ofNat 8 sc)) flag').2 ∧
      ∀ m : Modifier, flag'.getLsbD m.index = flag.getLsbD m.index := by
  cases hk : k.ext with
  | false =>
      refine ⟨flag, ?_, fun _ => rfl⟩
      rw [Key.bytes, hk]
      rfl
  | true =>
      refine ⟨flag ||| e0esc, ?_, fun m => ?_⟩
      · rw [Key.bytes, hk]
        rfl
      · have hbit : e0esc.getLsbD m.index = false := by
          cases m <;> decide
        rw [BitVec.getLsbD_or, hbit, Bool.or_false]

theorem index_lt (m : Modifier) : m.index < 32 := by
  cases m <;> decide

/-- A press sets the bit of the modifier of the key. -/
theorem readBytes_press (k : Key) (flag : Flag) :
    (readBytes (Ev.press k).bytes flag).getLsbD 6 = false ∧
      ∀ m : Modifier, (readBytes (Ev.press k).bytes flag).getLsbD m.index =
        (flag.getLsbD m.index || decide (k.modifier = some m)) := by
  obtain ⟨flag', hread, hflag⟩ := readBytes_bytes k k.code flag
  obtain ⟨htoggle, htoggles⟩ := togglemap_bit k.code
  rw [Ev.bytes, hread, readKbd_press]
  refine ⟨?_, fun m => ?_⟩
  · have hesc : (~~~e0esc).getLsbD 6 = false := by decide
    rw [BitVec.getLsbD_xor, BitVec.getLsbD_or, BitVec.getLsbD_and, hesc, shiftmap_e0esc, htoggle,
      Bool.and_false]
    rfl
  · have hesc : (~~~e0esc).getLsbD m.index = true := by
      cases m <;> decide
    rw [BitVec.getLsbD_xor, BitVec.getLsbD_or, BitVec.getLsbD_and, hesc, shiftmap_bit, htoggles,
      hflag, Bool.and_true, Bool.xor_false]
    rfl

/-- A release clears the bit of the modifier of the key. -/
theorem readBytes_release (k : Key) (flag : Flag) :
    (readBytes (Ev.release k).bytes flag).getLsbD 6 = false ∧
      ∀ m : Modifier, (readBytes (Ev.release k).bytes flag).getLsbD m.index =
        (flag.getLsbD m.index && !decide (k.modifier = some m)) := by
  obtain ⟨flag', hread, hflag⟩ := readBytes_bytes k (k.code + 128) flag
  rw [Ev.bytes, hread, readKbd_release k.ne_escape]
  refine ⟨?_, fun m => ?_⟩
  · have hesc : e0esc.getLsbD 6 = true := by decide
    rw [BitVec.getLsbD_and, BitVec.getLsbD_not, BitVec.getLsbD_or, hesc, Bool.or_true,
      Bool.not_true, Bool.and_false, Bool.and_false]
  · have hesc : e0esc.getLsbD m.index = false := by
      cases m <;> decide
    rw [BitVec.getLsbD_and, BitVec.getLsbD_not, BitVec.getLsbD_or, hesc, shiftmap_bit, hflag,
      Bool.or_false, decide_eq_true (index_lt m), Bool.true_and]
    rfl

end

/-- No other key of the modifier of `k` is held. -/
def Alone (es : List Ev) (k : Key) : Prop :=
  ∀ k' : Key, k' ≠ k → k'.modifier = k.modifier → k.modifier ≠ none → heldAfter es k' = false

section

variable {k : Key} {es : List Ev}

theorem flagAfter_concat (es : List Ev) (e : Ev) :
    flagAfter (es ++ [e]) = readBytes e.bytes (flagAfter es) := by
  rw [flagAfter, List.foldl_append]
  rfl

theorem heldAfter_concat (es : List Ev) (e : Ev) : heldAfter (es ++ [e]) = e.holds (heldAfter es) := by
  rw [heldAfter, List.foldl_append]
  rfl

theorem tracked_nil : Tracked [] := by
  refine ⟨fun m => ⟨fun h => absurd (by cases m <;> rfl) h, ?_⟩, rfl⟩
  rintro ⟨k, -, hk⟩
  cases hk

theorem tracked_press (h : Tracked es) (k : Key) : Tracked (es ++ [.press k]) := by
  obtain ⟨hsettled, hbits⟩ := readBytes_press k (flagAfter es)
  refine ⟨fun m => ?_, ?_⟩
  · have hm := h.bits m
    rw [and_bit_ne_zero] at hm ⊢
    rw [flagAfter_concat, heldAfter_concat, hbits, Bool.or_eq_true, hm, decide_eq_true_eq]
    constructor
    · rintro (⟨k', hk', hheld⟩ | hk)
      · refine ⟨k', hk', ?_⟩
        rw [Ev.holds, Function.update_apply]
        split_ifs
        · rfl
        · exact hheld
      · exact ⟨k, hk, Function.update_self ..⟩
    · rintro ⟨k', hk', hheld⟩
      by_cases he : k' = k
      · exact Or.inr (he ▸ hk')
      · rw [Ev.holds, Function.update_of_ne he] at hheld
        exact Or.inl ⟨k', hk', hheld⟩
  · rw [and_e0esc_eq_zero, flagAfter_concat]
    exact hsettled

/-- After a release the bits are right if and only if no other key of the modifier is
held. -/
theorem tracked_release_iff (h : Tracked es) (k : Key) :
    Tracked (es ++ [.release k]) ↔ Alone es k := by
  obtain ⟨hsettled, hbits⟩ := readBytes_release k (flagAfter es)
  have hbit : ∀ m : Modifier, flagAfter (es ++ [.release k]) &&& m.bit ≠ 0 ↔
      (∃ k' : Key, k'.modifier = some m ∧ heldAfter es k' = true) ∧ k.modifier ≠ some m := by
    intro m
    have hm := h.bits m
    rw [and_bit_ne_zero] at hm ⊢
    rw [flagAfter_concat, hbits, Bool.and_eq_true, hm, Bool.not_eq_true', decide_eq_false_iff_not]
  constructor
  · intro h' k' hne hsame hmod
    by_contra hheld
    rw [Bool.not_eq_false] at hheld
    obtain ⟨m, hm⟩ := Option.ne_none_iff_exists'.1 hmod
    have hset := (h'.bits m).2 ⟨k', hsame.trans hm, by
      rw [heldAfter_concat, Ev.holds, Function.update_of_ne hne]
      exact hheld⟩
    exact ((hbit m).1 hset).2 hm
  · intro halone
    refine ⟨fun m => ?_, ?_⟩
    · rw [hbit, heldAfter_concat]
      constructor
      · rintro ⟨⟨k', hk', hheld⟩, hk⟩
        have hne : k' ≠ k := fun he => hk (he ▸ hk')
        refine ⟨k', hk', ?_⟩
        rw [Ev.holds, Function.update_of_ne hne]
        exact hheld
      · rintro ⟨k', hk', hheld⟩
        have hne : k' ≠ k := by
          rintro rfl
          rw [Ev.holds, Function.update_self] at hheld
          cases hheld
        rw [Ev.holds, Function.update_of_ne hne] at hheld
        refine ⟨⟨k', hk', hheld⟩, fun hk => ?_⟩
        have hfree := halone k' hne (hk'.trans hk.symm) (by simp [hk])
        rw [hfree] at hheld
        cases hheld
    · rw [and_e0esc_eq_zero, flagAfter_concat]
      exact hsettled

/-- After each event of a sequence the bits tell which modifiers are held if and only
if no key of a modifier is released while another key of it is held. -/
theorem modifiers_tracked_iff (es : List Ev) :
    (∀ es₁, es₁ <+: es → Tracked es₁) ↔
      ∀ es₁ k, es₁ ++ [.release k] <+: es → Alone es₁ k := by
  induction es using List.reverseRecOn with
  | nil =>
      refine iff_of_true (fun es₁ h => ?_) fun es₁ k h => ?_
      · rw [List.prefix_nil.1 h]
        exact tracked_nil
      · simp at h
  | append_singleton es e ih =>
      have hsplit : ∀ es₁, es₁ <+: es ++ [e] ↔ es₁ <+: es ∨ es₁ = es ++ [e] := fun es₁ => by
        rw [List.prefix_concat_iff, or_comm]
      constructor
      · intro h es₁ k hp
        rcases (hsplit _).1 hp with hp | hp
        · exact ih.1 (fun es₂ h₂ => h es₂ ((hsplit _).2 (Or.inl h₂))) es₁ k hp
        · obtain ⟨rfl, he⟩ := List.append_inj' hp rfl
          obtain rfl := List.singleton_inj.1 he
          have hbefore := h es₁ ((hsplit _).2 (Or.inl List.prefix_rfl))
          exact (tracked_release_iff hbefore k).1 (h _ ((hsplit _).2 (Or.inr rfl)))
      · intro h es₁ hp
        have hall := ih.2 fun es₂ k h₂ => h es₂ k ((hsplit _).2 (Or.inl h₂))
        rcases (hsplit _).1 hp with hp | rfl
        · exact hall es₁ hp
        · cases e with
          | press k => exact tracked_press (hall es List.prefix_rfl) k
          | release k =>
              exact (tracked_release_iff (hall es List.prefix_rfl) k).2 (h es k List.prefix_rfl)

end

/-- The left Shift key. -/
def leftShift : Key := ⟨false, 0x2A, by decide, by decide⟩

/-- The right Shift key. -/
def rightShift : Key := ⟨false, 0x36, by decide, by decide⟩

/-- A key is released only if it is held. -/
def Legal (es : List Ev) : Prop := ∀ es₁ k, es₁ ++ [.release k] <+: es → heldAfter es₁ k = true

/-- Both Shift keys are pressed and the right one is released. -/
theorem shift_lost : Legal [.press leftShift, .press rightShift, .release rightShift] ∧
    heldAfter [.press leftShift, .press rightShift, .release rightShift] leftShift = true ∧
    flagAfter [.press leftShift, .press rightShift, .release rightShift] &&& shift = 0 := by
  refine ⟨fun es₁ k h => ?_, by decide, by decide⟩
  rcases List.prefix_concat_iff.1
      (show es₁ ++ [.release k] <+: [.press leftShift, .press rightShift] ++ [.release rightShift] from h)
    with heq | hp
  · obtain ⟨rfl, he⟩ := List.append_inj' heq rfl
    obtain rfl := Ev.release.inj (List.singleton_inj.1 he)
    decide
  · have hmem : Ev.release k ∈ [Ev.press leftShift, Ev.press rightShift] :=
      hp.subset (List.mem_append_right es₁ List.mem_cons_self)
    simp at hmem

end Kbd

end Chunix
