import Chunix.Fs.Spec
import Chunix.Machine.Run

/-!
# Tasks that share the cache

Any number of tasks call `getblk`, `bread`, `bwrite` and `brelse`. A call runs
without a break up to its return or to a `sleep_on`, where any other task may go
on; a sleeper may be resumed at any time, with or without a reason, and the disk
may interrupt at any time. A task passes to `bwrite` and `brelse` only buffers it
holds, those `getblk` has given to it and it has not released since.
-/

namespace Chunix

namespace Fs

open Machine Linked

/-- Where a task is: outside of the cache, asleep in `getblk` (called by `bread`
if `read` is set), or asleep in `hd_rw`. -/
inductive Pc
  | idle
  | getblk (read : Bool) (dev nblk : Nat)
  | hdRw (b : BufId)
deriving DecidableEq, Repr

/-- The cache with the tasks that use it and the buffers each of them holds. -/
structure Sys (τ : Type) where
  cache : Cache
  pc : τ → Pc
  held : τ → List BufId

/-- What happens in one step. A call or a resumed call of `getblk` or `bread`
comes with the buffer it returns, if it returns. -/
inductive Ev (τ : Type)
  | fetch (t : τ) (read : Bool) (dev nblk : Nat) (ret : Option BufId)
  | retry (t : τ) (read : Bool) (dev nblk : Nat) (ret : Option BufId)
  | wake (t : τ) (b : BufId)
  | change (t : τ) (b : BufId) (data : Sector)
  | bwrite (t : τ) (b : BufId)
  | brelse (t : τ) (b : BufId)
  | isr (input : Sector)

/-- The buffer a call returns. -/
def Outcome.ret : Outcome → Option BufId
  | .returned b => some b
  | .asleepGetblk => none
  | .asleepHdRw _ => none

variable {τ : Type} [DecidableEq τ]

/-- The task `t` after its call of `getblk` or `bread` has come to `o`. In
`hd_rw` the buffer is already its own. -/
def Sys.proceed (s : Sys τ) (t : τ) (read : Bool) (dev nblk : Nat) (o : Outcome) (c : Cache) :
    Sys τ :=
  match o with
  | .returned b =>
      ⟨c, Function.update s.pc t .idle, Function.update s.held t (b :: s.held t)⟩
  | .asleepGetblk => ⟨c, Function.update s.pc t (.getblk read dev nblk), s.held⟩
  | .asleepHdRw b =>
      ⟨c, Function.update s.pc t (.hdRw b), Function.update s.held t (b :: s.held t)⟩

/-- The steps of the tasks and of the disk. -/
inductive Step : Sys τ → Ev τ → Sys τ → Prop
  | fetch {s : Sys τ} {t read dev nblk o c} (hpc : s.pc t = .idle)
      (h : fetch read dev nblk s.cache = .ok (o, c)) :
      Step s (.fetch t read dev nblk o.ret) (s.proceed t read dev nblk o c)
  | retry {s : Sys τ} {t read dev nblk o c} (hpc : s.pc t = .getblk read dev nblk)
      (h : fetch read dev nblk s.cache = .ok (o, c)) :
      Step s (.retry t read dev nblk o.ret) (s.proceed t read dev nblk o c)
  | wake {s : Sys τ} {t b} (hpc : s.pc t = .hdRw b) :
      Step s (.wake t b) { s with
        pc := if hdDone (s.cache.buf b) then Function.update s.pc t .idle else s.pc }
  | change {s : Sys τ} {t b data} (hpc : s.pc t = .idle) (hb : b ∈ s.held t) :
      Step s (.change t b data)
        { s with cache := s.cache.setBuf b fun bp => { bp with data := data } }
  | bwrite {s : Sys τ} {t b done c} (hpc : s.pc t = .idle) (hb : b ∈ s.held t)
      (h : bwrite b s.cache = .ok (done, c)) :
      Step s (.bwrite t b) { s with
        cache := c
        pc := if done then s.pc else Function.update s.pc t (.hdRw b) }
  | brelse {s : Sys τ} {t b c} (hpc : s.pc t = .idle) (hb : b ∈ s.held t)
      (h : brelse b s.cache = .ok ((), c)) :
      Step s (.brelse t b) { s with
        cache := c
        held := Function.update s.held t ((s.held t).erase b) }
  | isr {s : Sys τ} {input c} (h : hdIsr input s.cache = .ok ((), c)) :
      Step s (.isr input) { s with cache := c }

/-- No two buffers are for the same sector. -/
def Unique (c : Cache) : Prop :=
  ∀ b b', (c.buf b).dev = (c.buf b').dev → (c.buf b).num = (c.buf b').num →
    (c.buf b).dev ≠ noDev → b = b'

/-- The cache is sound: the ring holds every buffer once, no two buffers are for
the same sector, a buffer is busy exactly when a task holds it, and then only one
task does, and a buffer that is not busy is not dirty. -/
structure Sound (s : Sys τ) : Prop where
  ring : ∃ l, Ring s.cache l ∧ ∀ b, b ∈ l
  unique : Unique s.cache
  busy : ∀ b, (s.cache.buf b).flags.busy = true ↔ ∃ t, b ∈ s.held t
  alone : ∀ t t' b, b ∈ s.held t → b ∈ s.held t' → t = t'
  dirty : ∀ b, (s.cache.buf b).flags.busy = false → (s.cache.buf b).flags.dirty = false

/-- The invariant: besides, a task holds no buffer twice, it sleeps in `hd_rw`
for buffers it holds, only such buffers are dirty, and the devices asked for are
numbers of 16 bits. -/
structure Inv (s : Sys τ) : Prop extends Sound s where
  nodup : ∀ t, (s.held t).Nodup
  sleeper : ∀ t b, s.pc t = .hdRw b → b ∈ s.held t
  writer : ∀ b, (s.cache.buf b).flags.dirty = true → ∃ t, s.pc t = .hdRw b
  asked : ∀ t read dev nblk, s.pc t = .getblk read dev nblk → dev < 65536

theorem Served.unique {c c' : Cache} (h : Served c c') (hu : Unique c) : Unique c' := by
  intro b b' hdev hnum hne
  rw [h.dev, h.dev] at hdev
  rw [h.num, h.num] at hnum
  rw [h.dev] at hne
  exact hu b b' hdev hnum hne

theorem Served.ring {c c' : Cache} (h : Served c c') {l : List BufId} (hr : Ring c l) :
    Ring c' l := by
  refine ⟨?_, hr.nodup⟩
  rw [h.next, h.prev]
  exact hr.span

/-- A free buffer has become busy, for the sector `nblk` of `dev`. -/
structure Taken (dev nblk : Nat) (b : BufId) (c c' : Cache) : Prop where
  next : c'.next = c.next
  prev : c'.prev = c.prev
  free : (c.buf b).flags.busy = false
  busy : ∀ b', (c'.buf b').flags.busy = true ↔ b' = b ∨ (c.buf b').flags.busy = true
  unique : Unique c → Unique c'
  dirty : ∀ b', (c'.buf b').flags.dirty = true → (c.buf b').flags.dirty = true
  dev : (c'.buf b).dev = dev
  num : (c'.buf b).num = nblk

theorem Taken.trans {dev nblk : Nat} {b : BufId} {c c₁ c' : Cache} (h : Taken dev nblk b c c₁)
    (h' : Served c₁ c') : Taken dev nblk b c c' where
  next := h'.next.trans h.next
  prev := h'.prev.trans h.prev
  free := h.free
  busy b' := by rw [h'.busy]; exact h.busy b'
  unique hu := h'.unique (h.unique hu)
  dirty b' hd := h.dirty b' (h'.dirty b' hd)
  dev := (h'.dev b).trans h.dev
  num := (h'.num b).trans h.num

/-- A buffer that `getblk` returns was taken by it. On a miss no buffer is for the
sector asked for, so that the one taken stays the only one. -/
theorem GetblkEffect.taken {dev nblk : Nat} {b : BufId} {c c' : Cache} (hdev : dev < 65536)
    (h : GetblkEffect dev nblk c (.buf b) c') : Taken dev nblk b c c' := by
  cases h with
  | hit hd hn hbusy =>
      refine ⟨rfl, rfl, hbusy, ?_, ?_, ?_, by simpa using hd, by simpa using hn⟩
      · intro b'
        by_cases hb : b' = b
        · simp [hb]
        · simp [hb, setBuf_of_ne hb]
      · intro hu b₁ b₂
        have hsame : ∀ b', ((c.setBuf b fun bp =>
            { bp with flags := { bp.flags with busy := true } }).buf b').dev = (c.buf b').dev ∧
            ((c.setBuf b fun bp =>
            { bp with flags := { bp.flags with busy := true } }).buf b').num = (c.buf b').num := by
          intro b'
          by_cases hb : b' = b
          · simp [hb]
          · simp [setBuf_of_ne hb]
        rw [(hsame b₁).1, (hsame b₁).2, (hsame b₂).1, (hsame b₂).2]
        exact hu b₁ b₂
      · intro b'
        by_cases hb : b' = b
        · simp [hb]
        · simp [setBuf_of_ne hb]
  | miss hmiss hbusy hdirty =>
      have hmod : dev % 65536 = dev := Nat.mod_eq_of_lt hdev
      refine ⟨rfl, rfl, hbusy, ?_, ?_, ?_, by simp [hmod], by simp⟩
      · intro b'
        by_cases hb : b' = b
        · simp [hb]
        · simp [hb, setBuf_of_ne hb]
      · intro hu b₁ b₂
        by_cases h₁ : b₁ = b <;> by_cases h₂ : b₂ = b
        · exact fun _ _ _ => h₁.trans h₂.symm
        · rw [h₁, setBuf_self, setBuf_of_ne h₂, hmod]
          exact fun hd hn => absurd ⟨hd.symm, hn.symm⟩ (hmiss b₂)
        · rw [h₂, setBuf_self, setBuf_of_ne h₁, hmod]
          exact fun hd hn => absurd ⟨hd, hn⟩ (hmiss b₁)
        · rw [setBuf_of_ne h₁, setBuf_of_ne h₂]
          exact hu b₁ b₂
      · intro b'
        by_cases hb : b' = b
        · simp [hb]
        · simp [setBuf_of_ne hb]

/-- What a call of `getblk` or `bread` does to the cache. -/
inductive FetchEffect (read : Bool) (dev nblk : Nat) (c c' : Cache) : Outcome → Prop
  | asleep (h : c' = c) : FetchEffect read dev nblk c c' .asleepGetblk
  | got {b} (hg : GetblkEffect dev nblk c (.buf b) c')
      (hv : read = true → (c'.buf b).flags.valid = true) :
      FetchEffect read dev nblk c c' (.returned b)
  | read {b c₁} (hg : GetblkEffect dev nblk c (.buf b) c₁)
      (hv : (c₁.buf b).flags.valid = false) (hl : LlRwEffect b c₁ c' true) :
      FetchEffect read dev nblk c c' (.returned b)
  | waits {b c₁} (hg : GetblkEffect dev nblk c (.buf b) c₁) (hl : LlRwEffect b c₁ c' false) :
      FetchEffect read dev nblk c c' (.asleepHdRw b)

theorem fetch_effect {read : Bool} {dev nblk : Nat} {c c' : Cache} {l : List BufId} {o : Outcome}
    (hr : Ring c l) (hall : ∀ b, b ∈ l) (h : fetch read dev nblk c = .ok (o, c')) :
    FetchEffect read dev nblk c c' o := by
  obtain ⟨g, c₁, hg, h⟩ := Act.bind_eq_ok.1 h
  have he := getblk_effect hr hall hg
  cases g with
  | asleep =>
      obtain ⟨rfl, rfl⟩ := Act.pure_eq_ok.1 h
      cases he
      exact .asleep rfl
  | buf b =>
      simp only [Act.bind_eq_ok, Act.gets_eq_ok, Act.ite_eq_ok, Act.pure_eq_ok] at h
      obtain ⟨_, _, ⟨rfl, rfl⟩, ⟨hv, done, c₂, hl, h⟩ | ⟨hv, rfl, rfl⟩⟩ := h
      · have hle := bufLlRw_effect hl
        rcases h with ⟨rfl, rfl, rfl⟩ | ⟨hd, rfl, rfl⟩
        · exact .read he hv.2 hle
        · rw [Bool.not_eq_true] at hd
          exact .waits he (hd ▸ hle)
      · exact .got he (by simpa using hv)

theorem FetchEffect.taken {read : Bool} {dev nblk : Nat} {b : BufId} {c c' : Cache} {o : Outcome}
    (hdev : dev < 65536) (h : FetchEffect read dev nblk c c' o)
    (ho : o = .returned b ∨ o = .asleepHdRw b) : Taken dev nblk b c c' := by
  cases h with
  | asleep => simp at ho
  | got hg _ =>
      simp only [Outcome.returned.injEq, reduceCtorEq, or_false] at ho
      exact ho ▸ hg.taken hdev
  | read hg _ hl =>
      simp only [Outcome.returned.injEq, reduceCtorEq, or_false] at ho
      exact ho ▸ (hg.taken hdev).trans hl.served
  | waits hg hl =>
      simp only [Outcome.asleepHdRw.injEq, reduceCtorEq, false_or] at ho
      exact ho ▸ (hg.taken hdev).trans hl.served

section

variable {s : Sys τ} {t : τ} {b : BufId} {c : Cache}

/-- A buffer no task holds goes to the task `t`. -/
theorem Inv.take {dev nblk : Nat} {p : Pc} (h : Inv s) (hpc : ∀ b, s.pc t ≠ .hdRw b)
    (ht : Taken dev nblk b s.cache c) (hp : p = .idle ∨ p = .hdRw b) :
    Inv ⟨c, Function.update s.pc t p, Function.update s.held t (b :: s.held t)⟩ := by
  have hfree : ∀ t', b ∉ s.held t' := by
    intro t' hb
    have := (h.busy b).2 ⟨t', hb⟩
    simp [ht.free] at this
  have hmem : ∀ {t' b'}, b' ∈ Function.update s.held t (b :: s.held t) t' ↔
      (t' = t ∧ b' = b) ∨ b' ∈ s.held t' := by
    intro t' b'
    by_cases htt : t' = t
    · simp [htt]
    · simp [htt]
  refine ⟨⟨?_, ht.unique h.unique, ?_, ?_, ?_⟩, ?_, ?_, ?_, ?_⟩
  · obtain ⟨l, hr, hall⟩ := h.ring
    exact ⟨l, ⟨by rw [ht.next, ht.prev]; exact hr.span, hr.nodup⟩, hall⟩
  · intro b'
    rw [ht.busy, h.busy]
    simp only [hmem]
    constructor
    · rintro (rfl | ⟨t', hb⟩)
      · exact ⟨t, Or.inl ⟨rfl, rfl⟩⟩
      · exact ⟨t', Or.inr hb⟩
    · rintro ⟨t', ⟨-, hb⟩ | hb⟩
      · exact Or.inl hb
      · exact Or.inr ⟨t', hb⟩
  · intro t₁ t₂ b' h₁ h₂
    rcases hmem.1 h₁ with ⟨h₁, hb⟩ | h₁ <;> rcases hmem.1 h₂ with ⟨h₂, hb'⟩ | h₂
    · exact h₁.trans h₂.symm
    · exact absurd (hb ▸ h₂) (hfree t₂)
    · exact absurd (hb' ▸ h₁) (hfree t₁)
    · exact h.alone t₁ t₂ b' h₁ h₂
  · intro b' hb
    have hbusy : (s.cache.buf b').flags.busy = false := by
      by_contra hb'
      have := (ht.busy b').2 (Or.inr (by simpa using hb'))
      exact absurd (hb.symm.trans this) (by simp)
    by_contra hd
    have := ht.dirty b' (by simpa using hd)
    simp [h.dirty b' hbusy] at this
  · intro t'
    by_cases htt : t' = t
    · simp only [htt, Function.update_self]
      exact List.nodup_cons.2 ⟨hfree t, h.nodup t⟩
    · simp only [Function.update_of_ne htt]
      exact h.nodup t'
  · intro t' b' hp'
    rw [hmem]
    by_cases htt : t' = t
    · simp only [htt, Function.update_self] at hp'
      rcases hp with rfl | rfl
      · simp at hp'
      · cases hp'
        exact Or.inl ⟨htt, rfl⟩
    · simp only [Function.update_of_ne htt] at hp'
      exact Or.inr (h.sleeper t' b' hp')
  · intro b' hd
    obtain ⟨t', ht'⟩ := h.writer b' (ht.dirty b' hd)
    refine ⟨t', ?_⟩
    have htt : t' ≠ t := by
      rintro rfl
      exact hpc b' ht'
    simp only [Function.update_of_ne htt, ht']
  · intro t' read dev nblk hp'
    by_cases htt : t' = t
    · simp only [htt, Function.update_self] at hp'
      rcases hp with rfl | rfl <;> simp at hp'
    · simp only [Function.update_of_ne htt] at hp'
      exact h.asked t' read dev nblk hp'

omit [DecidableEq τ] in
/-- A driver has been at work. -/
theorem Inv.serve (h : Inv s) (hs : Served s.cache c) : Inv { s with cache := c } := by
  refine ⟨⟨?_, hs.unique h.unique, ?_, h.alone, ?_⟩, h.nodup, h.sleeper, ?_, h.asked⟩
  · obtain ⟨l, hr, hall⟩ := h.ring
    exact ⟨l, hs.ring hr, hall⟩
  · intro b
    rw [hs.busy]
    exact h.busy b
  · intro b hb
    rw [hs.busy] at hb
    by_contra hd
    have := hs.dirty b (by simpa using hd)
    simp [h.dirty b hb] at this
  · exact fun b hd => h.writer b (hs.dirty b hd)

omit [DecidableEq τ] in
/-- A task that is not in `hd_rw` holds no dirty buffer. -/
theorem Inv.clean (h : Inv s) (hpc : ∀ b, s.pc t ≠ .hdRw b) (hb : b ∈ s.held t) :
    (s.cache.buf b).flags.dirty = false := by
  by_contra hd
  obtain ⟨t', ht'⟩ := h.writer b (by simpa using hd)
  exact hpc b (h.alone t' t b (h.sleeper t' b ht') hb ▸ ht')

theorem Inv.wake (h : Inv s) (hpc : s.pc t = .hdRw b) (hdone : hdDone (s.cache.buf b) = true) :
    Inv { s with pc := Function.update s.pc t .idle } := by
  have hne : ∀ {t'}, t' ≠ t → Function.update s.pc t .idle t' = s.pc t' :=
    fun h => Function.update_of_ne h _ _
  refine ⟨⟨h.ring, h.unique, h.busy, h.alone, h.dirty⟩, h.nodup, ?_, ?_, ?_⟩
  · intro t' b' hp
    by_cases htt : t' = t
    · simp [htt] at hp
    · simp only [hne htt] at hp
      exact h.sleeper t' b' hp
  · intro b' hd
    obtain ⟨t', ht'⟩ := h.writer b' hd
    refine ⟨t', ?_⟩
    have htt : t' ≠ t := by
      rintro rfl
      cases hpc.symm.trans ht'
      simp only [hdDone, Bool.and_eq_true, Bool.not_eq_true'] at hdone
      simp [hdone.2] at hd
    simp only [hne htt, ht']
  · intro t' read dev nblk hp
    by_cases htt : t' = t
    · simp [htt] at hp
    · simp only [hne htt] at hp
      exact h.asked t' read dev nblk hp

theorem Inv.bwrite {done : Bool} (h : Inv s) (hpc : s.pc t = .idle) (hb : b ∈ s.held t)
    (hl : LlRwEffect b (s.cache.setBuf b fun bp =>
      { bp with flags := { bp.flags with dirty := true } }) c done) :
    Inv { s with
      cache := c
      pc := if done then s.pc else Function.update s.pc t (.hdRw b) } := by
  have hs := hl.served
  -- Apart from the bit `BUF_DIRTY` of the buffer, the cache looks as before.
  have hsame : ∀ b', (c.buf b').flags.busy = (s.cache.buf b').flags.busy ∧
      (c.buf b').dev = (s.cache.buf b').dev ∧ (c.buf b').num = (s.cache.buf b').num := by
    intro b'
    rw [hs.busy, hs.dev, hs.num]
    by_cases hbb : b' = b
    · simp [hbb]
    · simp [setBuf_of_ne hbb]
  have hdirty : ∀ b', b' ≠ b → (c.buf b').flags.dirty = true →
      (s.cache.buf b').flags.dirty = true := by
    intro b' hbb hd
    have := hs.dirty b' hd
    rwa [setBuf_of_ne hbb] at this
  have hbusy := (h.busy b).2 ⟨t, hb⟩
  refine ⟨⟨?_, ?_, ?_, h.alone, ?_⟩, h.nodup, ?_, ?_, ?_⟩
  · obtain ⟨l, hr, hall⟩ := h.ring
    exact ⟨l, hs.ring ⟨hr.span, hr.nodup⟩, hall⟩
  · intro b₁ b₂
    rw [(hsame b₁).2.1, (hsame b₁).2.2, (hsame b₂).2.1, (hsame b₂).2.2]
    exact h.unique b₁ b₂
  · intro b'
    rw [(hsame b').1]
    exact h.busy b'
  · intro b' hb'
    rw [(hsame b').1] at hb'
    have hbb : b' ≠ b := by
      rintro rfl
      simp [hbusy] at hb'
    by_contra hd
    have := hdirty b' hbb (by simpa using hd)
    simp [h.dirty b' hb'] at this
  · intro t' b' hp
    cases done with
    | true => exact h.sleeper t' b' hp
    | false =>
        by_cases htt : t' = t
        · simp only [htt, Bool.false_eq_true, if_false, Function.update_self] at hp
          cases hp
          exact htt ▸ hb
        · simp only [Bool.false_eq_true, if_false, Function.update_of_ne htt] at hp
          exact h.sleeper t' b' hp
  · intro b' hd
    by_cases hbb : b' = b
    · cases done with
      | true =>
          rw [hbb] at hd
          exact absurd (hl.dirty.symm.trans hd) (by simp)
      | false => exact ⟨t, by simp [hbb]⟩
    · obtain ⟨t', ht'⟩ := h.writer b' (hdirty b' hbb hd)
      refine ⟨t', ?_⟩
      have htt : t' ≠ t := by
        rintro rfl
        simp [hpc] at ht'
      cases done with
      | true => exact ht'
      | false => simp [htt, ht']
  · intro t' read dev nblk hp
    cases done with
    | true => exact h.asked t' read dev nblk hp
    | false =>
        by_cases htt : t' = t
        · simp [htt] at hp
        · simp only [Bool.false_eq_true, if_false, Function.update_of_ne htt] at hp
          exact h.asked t' read dev nblk hp

theorem Inv.brelse (h : Inv s) (hpc : s.pc t = .idle) (hb : b ∈ s.held t)
    (hc : brelse b s.cache = .ok ((), c)) :
    Inv { s with
      cache := c
      held := Function.update s.held t ((s.held t).erase b) } := by
  have hclean := h.clean (b := b) (t := t) (by simp [hpc]) hb
  obtain ⟨-, rfl⟩ := brelse_eq_ok.1 hc
  set c' := (s.cache.unlink (.fsbuf b)).linkFirst (.fsbuf b) with hc'
  have hbuf : c'.buf = s.cache.buf := rfl
  have hmem : ∀ {t' b'}, b' ∈ Function.update s.held t ((s.held t).erase b) t' ↔
      b' ∈ s.held t' ∧ b' ≠ b := by
    intro t' b'
    by_cases htt : t' = t
    · simp [htt, (h.nodup t).mem_erase_iff, and_comm]
    · simp only [Function.update_of_ne htt]
      refine ⟨fun hm => ⟨hm, ?_⟩, And.left⟩
      rintro rfl
      exact htt (h.alone t' t b' hm hb)
  refine ⟨⟨?_, ?_, ?_, ?_, ?_⟩, ?_, ?_, ?_, h.asked⟩
  · obtain ⟨l, hr, hall⟩ := h.ring
    obtain ⟨l₁, l₂, rfl⟩ := List.append_of_mem (hall b)
    refine ⟨b :: (l₁ ++ l₂), ⟨hr.toFront.span, hr.toFront.nodup⟩, fun b' => ?_⟩
    exact List.perm_middle.mem_iff.1 (hall b')
  · intro b₁ b₂
    have hsame : ∀ b', ((c'.setBuf b fun bp =>
        { bp with flags := { bp.flags with busy := false } }).buf b').dev =
        (s.cache.buf b').dev ∧ ((c'.setBuf b fun bp =>
        { bp with flags := { bp.flags with busy := false } }).buf b').num =
        (s.cache.buf b').num := by
      intro b'
      by_cases hbb : b' = b
      · simp [hbb, hbuf]
      · simp [setBuf_of_ne hbb, hbuf]
    simp only [(hsame b₁).1, (hsame b₁).2, (hsame b₂).1, (hsame b₂).2]
    exact h.unique b₁ b₂
  · intro b'
    simp only [hmem]
    by_cases hbb : b' = b
    · simp [hbb]
    · simp only [setBuf_of_ne hbb, hbuf, h.busy, hbb, ne_eq, not_false_eq_true, and_true]
  · intro t₁ t₂ b'
    simp only [hmem]
    exact fun h₁ h₂ => h.alone t₁ t₂ b' h₁.1 h₂.1
  · intro b'
    by_cases hbb : b' = b
    · simp [hbb, hbuf, hclean]
    · simp only [setBuf_of_ne hbb, hbuf]
      exact h.dirty b'
  · intro t'
    by_cases htt : t' = t
    · simp only [htt, Function.update_self]
      exact (h.nodup t).erase b
    · simp only [Function.update_of_ne htt]
      exact h.nodup t'
  · intro t' b' hp
    rw [hmem]
    refine ⟨h.sleeper t' b' hp, ?_⟩
    rintro rfl
    have := h.alone t' t b' (h.sleeper t' b' hp) hb
    simp [this, hpc] at hp
  · intro b' hd
    by_cases hbb : b' = b
    · simp [hbb, hbuf, hclean] at hd
    · simp only [setBuf_of_ne hbb, hbuf] at hd
      exact h.writer b' hd

end

/-- A call of `getblk` or `bread`, first or resumed, keeps the invariant. -/
theorem Inv.fetch {s : Sys τ} {t : τ} {read : Bool} {dev nblk : Nat} {o : Outcome} {c : Cache}
    (h : Inv s) (hpc : ∀ b, s.pc t ≠ .hdRw b) (hdev : dev < 65536)
    (hf : fetch read dev nblk s.cache = .ok (o, c)) :
    Inv (s.proceed t read dev nblk o c) := by
  obtain ⟨l, hr, hall⟩ := h.ring
  have he := fetch_effect hr hall hf
  cases o with
  | returned b => exact h.take hpc (he.taken hdev (Or.inl rfl)) (Or.inl rfl)
  | asleepHdRw b => exact h.take hpc (he.taken hdev (Or.inr rfl)) (Or.inr rfl)
  | asleepGetblk =>
      cases he with
      | asleep hc =>
          subst hc
          refine ⟨⟨h.ring, h.unique, h.busy, h.alone, h.dirty⟩, h.nodup, ?_, ?_, ?_⟩
          · intro t' b hp
            by_cases htt : t' = t
            · simp [Sys.proceed, htt] at hp
            · simp only [Sys.proceed, Function.update_of_ne htt] at hp
              exact h.sleeper t' b hp
          · intro b hd
            obtain ⟨t', ht'⟩ := h.writer b hd
            have htt : t' ≠ t := by
              rintro rfl
              exact hpc b ht'
            exact ⟨t', by simp only [Sys.proceed, Function.update_of_ne htt, ht']⟩
          · intro t' read' dev' nblk' hp
            by_cases htt : t' = t
            · simp only [Sys.proceed, htt, Function.update_self] at hp
              cases hp
              exact hdev
            · simp only [Sys.proceed, Function.update_of_ne htt] at hp
              exact h.asked t' read' dev' nblk' hp

/-- The steps in which a device asked for is a device number, of 16 bits as
`dev_t` is. -/
def DevStep (s : Sys τ) (e : Ev τ) (s' : Sys τ) : Prop :=
  Step s e s' ∧ ∀ t read dev nblk ret, e = .fetch t read dev nblk ret → dev < 65536

theorem inv_step {s s' : Sys τ} {e : Ev τ} (h : Inv s) (hs : DevStep s e s') : Inv s' := by
  obtain ⟨hs, hdev⟩ := hs
  cases hs with
  | fetch hpc hf => exact h.fetch (by simp [hpc]) (hdev _ _ _ _ _ rfl) hf
  | @retry t read dev nblk _ _ hpc hf =>
      exact h.fetch (by simp [hpc]) (h.asked t read dev nblk hpc) hf
  | @wake t b hpc =>
      by_cases hd : hdDone (s.cache.buf b) = true
      · simp only [hd, if_true]
        exact h.wake hpc hd
      · simp only [hd]
        exact h
  | change hpc hb => exact h.serve (.setBuf rfl rfl rfl id)
  | bwrite hpc hb hw => exact h.bwrite hpc hb (bufLlRw_effect (bwrite_eq_ok.1 hw).2)
  | brelse hpc hb hr => exact h.brelse hpc hb hr
  | isr hi => exact h.serve (hdIsr_served hi)

/-- The system as `init_buffer` leaves it: the array `fsbuf` was all zeros before
and no task has used the cache. -/
def Start (s : Sys τ) : Prop :=
  (∃ c : Cache, (∀ b, (c.buf b).flags = ⟨false, false, false⟩) ∧ s.cache = initBuffer c) ∧
    (∀ t, s.pc t = .idle) ∧ ∀ t, s.held t = []

omit [DecidableEq τ] in
theorem Start.inv {s : Sys τ} (h : Start s) : Inv s := by
  obtain ⟨⟨c, hc, hs⟩, hpc, hheld⟩ := h
  obtain ⟨l, hr, hall, -, -, hbuf⟩ := initBuffer_ring c
  have hflags : ∀ b, (s.cache.buf b).flags = ⟨false, false, false⟩ := by
    intro b
    rw [hs, hbuf]
    exact hc b
  refine ⟨⟨⟨l, hs ▸ hr, hall⟩, ?_, ?_, ?_, ?_⟩, ?_, ?_, ?_, ?_⟩
  · intro b b' _ _ hne
    rw [hs, hbuf] at hne
    exact absurd rfl hne
  · intro b
    simp [hflags, hheld]
  · intro t t' b hb
    simp [hheld] at hb
  · intro b _
    rw [hflags]
  · intro t
    simp [hheld]
  · intro t b hp
    simp [hpc] at hp
  · intro b hd
    simp [hflags] at hd
  · intro t read dev nblk hp
    simp [hpc] at hp

/-- A task loses a buffer only by its own `brelse`. -/
theorem Step.held {s s' : Sys τ} {e : Ev τ} {t : τ} {b : BufId} (hs : Step s e s')
    (hb : b ∈ s.held t) (he : e ≠ .brelse t b) : b ∈ s'.held t := by
  have hproceed : ∀ t' read dev nblk o c, b ∈ (s.proceed t' read dev nblk o c).held t := by
    intro t' read dev nblk o c
    by_cases htt : t = t'
    · cases o <;> simp [Sys.proceed, ← htt, hb]
    · cases o <;> simp [Sys.proceed, htt, hb]
  cases hs with
  | fetch => exact hproceed _ _ _ _ _ _
  | retry => exact hproceed _ _ _ _ _ _
  | wake => exact hb
  | change => exact hb
  | bwrite => exact hb
  | @brelse t' b' =>
      by_cases htt : t = t'
      · have hbb : b ≠ b' := by
          rintro rfl
          exact he (by rw [htt])
        simp only [← htt, Function.update_self]
        exact (List.mem_erase_of_ne hbb).2 hb
      · simp only [Function.update_of_ne htt]
        exact hb
  | isr => exact hb

/-- The buffer a call returns is held by the caller. -/
theorem Step.returned {s s' : Sys τ} {e : Ev τ} {t : τ} {read : Bool} {dev nblk : Nat} {b : BufId}
    (hs : Step s e s')
    (he : e = .fetch t read dev nblk (some b) ∨ e = .retry t read dev nblk (some b)) :
    b ∈ s'.held t := by
  have hproceed : ∀ o c, Outcome.ret o = some b →
      b ∈ (s.proceed t read dev nblk o c).held t := by
    intro o c ho
    cases o with
    | returned b' =>
        cases ho
        simp [Sys.proceed]
    | asleepGetblk => simp [Outcome.ret] at ho
    | asleepHdRw b' => simp [Outcome.ret] at ho
  cases hs with
  | @fetch _ _ _ _ o c hpc hf =>
      rcases he with he | he
      · simp only [Ev.fetch.injEq] at he
        obtain ⟨rfl, rfl, rfl, rfl, ho⟩ := he
        exact hproceed o c ho
      · simp at he
  | @retry _ _ _ _ o c hpc hf =>
      rcases he with he | he
      · simp at he
      · simp only [Ev.retry.injEq] at he
        obtain ⟨rfl, rfl, rfl, rfl, ho⟩ := he
        exact hproceed o c ho
  | _ => simp at he

/-- After `init_buffer`, in every interleaving of any number of tasks, the cache
is sound; a call gives its buffer to the caller, who keeps it, busy, up to its own
`brelse`. -/
theorem cache_sound {s₀ s : Sys τ} {es : List (Ev τ)} (h₀ : Start s₀)
    (hr : Run DevStep s₀ es s) :
    Sound s ∧ ∀ e s', DevStep s e s' →
      (∀ t read dev nblk b, e = .fetch t read dev nblk (some b) ∨
        e = .retry t read dev nblk (some b) → b ∈ s'.held t) ∧
      ∀ t b, b ∈ s.held t → e ≠ .brelse t b →
        b ∈ s'.held t ∧ (s'.cache.buf b).flags.busy = true := by
  have h : Inv s := hr.invariant (fun _ _ _ _ h hs => inv_step h hs) h₀.inv
  refine ⟨h.toSound, fun e s' hs => ⟨fun t read dev nblk b he => hs.1.returned he, ?_⟩⟩
  intro t b hb he
  have hb' := hs.1.held hb he
  exact ⟨hb', ((inv_step h hs).busy b).2 ⟨t, hb'⟩⟩

/-- A memory disk of four sectors of zeros and a single task. -/
def small : Sys Unit where
  cache := initBuffer ⟨fun _ => ⟨0, ⟨false, false, false⟩, 0, none, fun _ => 0⟩,
    fun _ => .bhead, fun _ => .bhead, none, [], fun _ _ => 0, 4⟩
  pc := fun _ => .idle
  held := fun _ => []

theorem small_start : Start small :=
  ⟨⟨_, fun _ => rfl, rfl⟩, fun _ => rfl, fun _ => rfl⟩

/-- The task reads a sector and holds the buffer. -/
theorem small_bread_sound :
    ∃ s b, Run DevStep small [.fetch () true 256 3 (some b)] s ∧ Sound s := by
  obtain ⟨b, c, hf⟩ : ∃ b c, fetch true 256 3 small.cache = .ok (.returned b, c) :=
    ⟨_, _, rfl⟩
  have hs : DevStep small (.fetch () true 256 3 (some b))
      (small.proceed () true 256 3 (.returned b) c) := by
    refine ⟨Step.fetch rfl hf, ?_⟩
    rintro t read dev nblk ret ⟨⟩
    decide
  exact ⟨_, b, Run.single hs, (cache_sound small_start (Run.single hs)).1⟩

end Fs

end Chunix
