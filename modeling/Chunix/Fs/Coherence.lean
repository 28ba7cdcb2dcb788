import Chunix.Fs.Sharing

/-!
# The cache over the memory disk

For one device of the memory disk the cache is a sector store: `bread` returns
the data last written to the sector by `bwrite`. Beside the system runs a log
with the data last written to each sector and the buffers changed since they were
last written; clients release a buffer only when it is unchanged.
-/

namespace Chunix

namespace Fs

open Machine

/-- The data last written to each sector, and the buffers that were changed and
not yet written. -/
structure Log where
  last : Nat → Sector
  changed : BufId → Bool

variable {τ : Type} [DecidableEq τ]

/-- The log after an event in the state `s`. -/
def Log.note (l : Log) (s : Sys τ) : Ev τ → Log
  | .change _ b _ => { l with changed := Function.update l.changed b true }
  | .bwrite _ b =>
      ⟨Function.update l.last (s.cache.buf b).num (s.cache.buf b).data,
        Function.update l.changed b false⟩
  | _ => l

/-- The events of clients of the sectors below `disksize` of the device `d`, who
write a buffer they have changed before they release it. -/
def Ev.allowed (d disksize : Nat) (l : Log) : Ev τ → Prop
  | .fetch _ read dev nblk _ => read = true ∧ dev = d ∧ nblk < disksize
  | .brelse _ b => l.changed b = false
  | .isr _ => False
  | _ => True

/-- The steps of such clients, with the log. -/
def MemStep (d : Nat) (x : Sys τ × Log) (e : Ev τ) (y : Sys τ × Log) : Prop :=
  Step x.1 e y.1 ∧ e.allowed d x.1.cache.disksize x.2 ∧ y.2 = x.2.note x.1 e

/-- The invariant: the disk has the data last written, and so has a valid buffer
unless its holder has changed it. All buffers in use are for the device. -/
structure Coherent (d : Nat) (s : Sys τ) (l : Log) : Prop where
  inv : Inv s
  disk : s.cache.disk = l.last
  data : ∀ b, (s.cache.buf b).flags.valid = true → l.changed b = false →
    (s.cache.buf b).data = s.cache.disk (s.cache.buf b).num
  unchanged : ∀ b, (s.cache.buf b).flags.busy = false → l.changed b = false
  busyDev : ∀ b, (s.cache.buf b).flags.busy = true → (s.cache.buf b).dev = d
  validDev : ∀ b, (s.cache.buf b).flags.valid = true → (s.cache.buf b).dev = d
  awake : ∀ t b, s.pc t ≠ .hdRw b
  asked : ∀ t read dev nblk, s.pc t = .getblk read dev nblk → read = true ∧ dev = d

/-- What `bread` does on the device when it returns: a free buffer for the sector
becomes busy and valid and has the data of the sector, and nothing else is
touched. -/
structure Read (d nblk : Nat) (b : BufId) (c c' : Cache) : Prop where
  taken : Taken d nblk b c c'
  other : ∀ b', b' ≠ b → c'.buf b' = c.buf b'
  valid : (c'.buf b).flags.valid = true
  data : (c'.buf b).data = c.disk nblk
  disk : c'.disk = c.disk
  disksize : c'.disksize = c.disksize

theorem GetblkEffect.other {dev nblk : Nat} {b b' : BufId} {c c' : Cache}
    (h : GetblkEffect dev nblk c (.buf b) c') (hb : b' ≠ b) : c'.buf b' = c.buf b' := by
  cases h with
  | hit => exact setBuf_of_ne hb
  | miss => exact setBuf_of_ne hb

theorem GetblkEffect.disk {dev nblk : Nat} {g : Got} {c c' : Cache}
    (h : GetblkEffect dev nblk c g c') : c'.disk = c.disk ∧ c'.disksize = c.disksize := by
  cases h <;> exact ⟨rfl, rfl⟩

section

variable {d : Nat} (hd : d < 65536) (hm : major d = memMajor)
  {s : Sys τ} {l : Log} {t : τ} {nblk : Nat} {b : BufId} {c : Cache} {o : Outcome}

include hd hm

omit [DecidableEq τ] in
theorem Coherent.fetch (h : Coherent d s l) (hf : Fs.fetch true d nblk s.cache = .ok (o, c)) :
    (o = .asleepGetblk ∧ c = s.cache) ∨ ∃ b, o = .returned b ∧ Read d nblk b s.cache c := by
  obtain ⟨ls, hr, hall⟩ := h.inv.ring
  have he := fetch_effect hr hall hf
  cases he with
  | asleep hc => exact Or.inl ⟨rfl, hc⟩
  | @got b hg hv =>
      refine Or.inr ⟨b, rfl, ⟨hg.taken hd, fun b' => hg.other, hv rfl, ?_, hg.disk.1, hg.disk.2⟩⟩
      cases hg with
      | hit hdev hnum hbusy =>
          have hv' : (s.cache.buf b).flags.valid = true := by simpa using hv rfl
          have := h.data b hv' (h.unchanged b hbusy)
          simpa [hnum] using this
      | miss => simp at hv
  | @read b c₁ hg hv hl =>
      refine Or.inr ⟨b, rfl, ?_⟩
      have ht := hg.taken hd
      generalize hdone : true = done at hl
      cases hl with
      | hd hm' _ =>
          rw [ht.dev, hm] at hm'
          simp [memMajor, hdMajor] at hm'
      | mem _ hx =>
          have hclean : (c₁.buf b).flags.dirty = false := by
            by_contra hdirty
            have := ht.dirty b (by simpa using hdirty)
            simp [h.inv.dirty b ht.free] at this
          have hdata := hx.data
          have hdisk := hx.disk
          simp only [hclean, Bool.false_eq_true, if_false] at hdata hdisk
          refine ⟨ht.trans hx.served, ?_, by rw [hx.flags], ?_, ?_, ?_⟩
          · intro b' hb
            rw [hx.other b' hb, hg.other hb]
          · rw [hdata, ht.num, hg.disk.1]
          · rw [hdisk, hg.disk.1]
          · rw [hx.served.disksize, hg.disk.2]
  | @waits b c₁ hg hl =>
      exfalso
      have ht := hg.taken hd
      generalize hdone : false = done at hl
      cases hl with
      | mem => simp at hdone
      | hd hm' _ =>
          rw [ht.dev, hm] at hm'
          simp [memMajor, hdMajor] at hm'

omit hd hm in
theorem Coherent.read (h : Coherent d s l) (hr : Read d nblk b s.cache c)
    (hi : Inv ⟨c, Function.update s.pc t .idle, Function.update s.held t (b :: s.held t)⟩) :
    Coherent d ⟨c, Function.update s.pc t .idle, Function.update s.held t (b :: s.held t)⟩ l := by
  refine ⟨hi, hr.disk.trans h.disk, ?_, ?_, ?_, ?_, ?_, ?_⟩
  · intro b' hv hc
    by_cases hb : b' = b
    · subst hb
      simp only [hr.data, hr.taken.num, hr.disk]
    · simp only [hr.other b' hb, hr.disk] at hv ⊢
      exact h.data b' hv hc
  · intro b' hbusy
    refine h.unchanged b' ?_
    by_contra hb
    have := (hr.taken.busy b').2 (Or.inr (by simpa using hb))
    exact absurd (hbusy.symm.trans this) (by simp)
  · intro b' hbusy
    by_cases hb : b' = b
    · subst hb
      exact hr.taken.dev
    · simp only [hr.other b' hb] at hbusy ⊢
      exact h.busyDev b' hbusy
  · intro b' hv
    by_cases hb : b' = b
    · subst hb
      exact hr.taken.dev
    · simp only [hr.other b' hb] at hv ⊢
      exact h.validDev b' hv
  · intro t' b'
    by_cases htt : t' = t
    · simp [htt]
    · simp only [Function.update_of_ne htt]
      exact h.awake t' b'
  · intro t' read dev nblk hp
    by_cases htt : t' = t
    · simp [htt] at hp
    · simp only [Function.update_of_ne htt] at hp
      exact h.asked t' read dev nblk hp

/-- A call of `bread`, first or resumed, keeps the invariant. -/
theorem Coherent.proceed (h : Coherent d s l) (hpc : ∀ b, s.pc t ≠ .hdRw b)
    (hf : Fs.fetch true d nblk s.cache = .ok (o, c)) :
    Coherent d (s.proceed t true d nblk o c) l := by
  have hi := h.inv.fetch hpc hd hf
  rcases h.fetch hd hm hf with ⟨rfl, rfl⟩ | ⟨b, rfl, hr⟩
  · refine ⟨hi, h.disk, h.data, h.unchanged, h.busyDev, h.validDev, ?_, ?_⟩
    · intro t' b
      by_cases htt : t' = t
      · simp [Sys.proceed, htt]
      · simp only [Sys.proceed, Function.update_of_ne htt]
        exact h.awake t' b
    · intro t' read dev nblk' hp
      by_cases htt : t' = t
      · simp only [Sys.proceed, htt, Function.update_self] at hp
        cases hp
        exact ⟨rfl, rfl⟩
      · simp only [Sys.proceed, Function.update_of_ne htt] at hp
        exact h.asked t' read dev nblk' hp
  · exact h.read hr hi

omit [DecidableEq τ] hd hm in
theorem Coherent.change {data : Sector} (h : Coherent d s l)
    (hi : Inv { s with cache := s.cache.setBuf b fun bp => { bp with data := data } })
    (hb : b ∈ s.held t) :
    Coherent d { s with cache := s.cache.setBuf b fun bp => { bp with data := data } }
      { l with changed := Function.update l.changed b true } := by
  have hbusy := (h.inv.busy b).2 ⟨t, hb⟩
  refine ⟨hi, h.disk, ?_, ?_, ?_, ?_, h.awake, h.asked⟩ <;> intro b' <;> by_cases hbb : b' = b
  · simp [hbb]
  · simp only [setBuf_of_ne hbb, Function.update_of_ne hbb, setBuf_disk]
    exact h.data b'
  · simp [hbb, hbusy]
  · simp only [setBuf_of_ne hbb, Function.update_of_ne hbb]
    exact h.unchanged b'
  · simp only [hbb, setBuf_self]
    exact h.busyDev b
  · simp only [setBuf_of_ne hbb]
    exact h.busyDev b'
  · simp only [hbb, setBuf_self]
    exact h.validDev b
  · simp only [setBuf_of_ne hbb]
    exact h.validDev b'

/-- After `bwrite` the sector, the log and the buffer have the same data, and no
other valid buffer is for that sector. -/
theorem Coherent.bwrite {done : Bool} (h : Coherent d s l) (hb : b ∈ s.held t)
    (hl : LlRwEffect b (s.cache.setBuf b fun bp =>
      { bp with flags := { bp.flags with dirty := true } }) c done)
    (hi : Inv { s with
      cache := c
      pc := if done then s.pc else Function.update s.pc t (.hdRw b) }) :
    Coherent d { s with
      cache := c
      pc := if done then s.pc else Function.update s.pc t (.hdRw b) }
      ⟨Function.update l.last (s.cache.buf b).num (s.cache.buf b).data,
        Function.update l.changed b false⟩ := by
  have hdev := h.busyDev b ((h.inv.busy b).2 ⟨t, hb⟩)
  cases hl with
  | hd hm' _ =>
      rw [setBuf_self, hdev, hm] at hm'
      simp [memMajor, hdMajor] at hm'
  | mem _ hx =>
      have hnum := hx.served.num b
      have hdata := hx.data
      have hdisk := hx.disk
      simp only [setBuf_self, setBuf_disk, if_true] at hnum hdata hdisk
      have hother : ∀ b', b' ≠ b → c.buf b' = s.cache.buf b' := by
        intro b' hbb
        rw [hx.other b' hbb, setBuf_of_ne hbb]
      refine ⟨hi, ?_, ?_, ?_, ?_, ?_, h.awake, h.asked⟩
      · rw [hdisk, h.disk]
      · intro b' hv hc
        by_cases hbb : b' = b
        · simp only [hbb, hdata, hnum, hdisk, Function.update_self]
        · simp only [hother b' hbb, Function.update_of_ne hbb] at hv hc ⊢
          have hne : (s.cache.buf b').num ≠ (s.cache.buf b).num := by
            intro he
            have hdev' := h.validDev b' hv
            refine hbb (h.inv.unique b' b (hdev'.trans hdev.symm) he ?_)
            rw [hdev']
            rintro rfl
            simp [major, noDev, memMajor] at hm
          rw [hdisk, Function.update_of_ne hne]
          exact h.data b' hv hc
      · intro b' hbusy
        by_cases hbb : b' = b
        · simp [hbb]
        · simp only [hother b' hbb, Function.update_of_ne hbb] at hbusy ⊢
          exact h.unchanged b' hbusy
      · intro b' hbusy
        by_cases hbb : b' = b
        · simp only [hbb, hx.served.dev, setBuf_self, hdev]
        · simp only [hother b' hbb] at hbusy ⊢
          exact h.busyDev b' hbusy
      · intro b' hv
        by_cases hbb : b' = b
        · simp only [hbb, hx.served.dev, setBuf_self, hdev]
        · simp only [hother b' hbb] at hv ⊢
          exact h.validDev b' hv

omit hd hm in
theorem Coherent.brelse (h : Coherent d s l) (hc : l.changed b = false)
    (hb : Fs.brelse b s.cache = .ok ((), c))
    (hi : Inv { s with
      cache := c
      held := Function.update s.held t ((s.held t).erase b) }) :
    Coherent d { s with
      cache := c
      held := Function.update s.held t ((s.held t).erase b) } l := by
  obtain ⟨-, rfl⟩ := brelse_eq_ok.1 hb
  set c' := (s.cache.unlink (.fsbuf b)).linkFirst (.fsbuf b) with hc'
  have hbuf : c'.buf = s.cache.buf := rfl
  have hdisk : c'.disk = s.cache.disk := rfl
  refine ⟨hi, h.disk, ?_, ?_, ?_, ?_, h.awake, h.asked⟩ <;> intro b' <;> by_cases hbb : b' = b
  · simp only [hbb, setBuf_self, setBuf_disk, hbuf, hdisk]
    exact h.data b
  · simp only [setBuf_of_ne hbb, setBuf_disk, hbuf, hdisk]
    exact h.data b'
  · exact fun _ => hbb ▸ hc
  · simp only [setBuf_of_ne hbb, hbuf]
    exact h.unchanged b'
  · simp [hbb]
  · simp only [setBuf_of_ne hbb, hbuf]
    exact h.busyDev b'
  · simp only [hbb, setBuf_self, hbuf]
    exact h.validDev b
  · simp only [setBuf_of_ne hbb, hbuf]
    exact h.validDev b'

/-- One step keeps the invariant. -/
theorem coherent_step {x y : Sys τ × Log} {e : Ev τ} (h : Coherent d x.1 x.2)
    (hs : MemStep d x e y) : Coherent d y.1 y.2 := by
  obtain ⟨s, l⟩ := x
  obtain ⟨s', l'⟩ := y
  obtain ⟨hs, ha, rfl⟩ := hs
  simp only at hs ha h ⊢
  have hdev : ∀ t read dev nblk ret, e = .fetch t read dev nblk ret → dev < 65536 := by
    rintro t read dev nblk ret rfl
    rw [ha.2.1]
    exact hd
  have hi := inv_step h.inv ⟨hs, hdev⟩
  cases hs with
  | fetch hpc hf =>
      obtain ⟨rfl, rfl, -⟩ := ha
      exact h.proceed hd hm (by simp [hpc]) hf
  | @retry t read dev nblk o c hpc hf =>
      obtain ⟨rfl, rfl⟩ := h.asked t read dev nblk hpc
      exact h.proceed hd hm (by simp [hpc]) hf
  | wake hpc => exact absurd hpc (h.awake _ _)
  | change hpc hb => exact h.change hi hb
  | bwrite hpc hb hw => exact h.bwrite hd hm hb (bufLlRw_effect (bwrite_eq_ok.1 hw).2) hi
  | brelse hpc hb hr => exact h.brelse ha hr hi
  | isr hr => exact ha.elim

omit [DecidableEq τ] hd hm in
theorem Start.coherent (h : Start s) :
    Coherent d s ⟨s.cache.disk, fun _ => false⟩ := by
  have hi := h.inv
  obtain ⟨⟨c, hc, hs⟩, hpc, hheld⟩ := h
  obtain ⟨-, -, -, -, -, hbuf⟩ := initBuffer_ring c
  have hflags : ∀ b, (s.cache.buf b).flags = ⟨false, false, false⟩ := by
    intro b
    rw [hs, hbuf]
    exact hc b
  refine ⟨hi, rfl, ?_, fun _ _ => rfl, ?_, ?_, ?_, ?_⟩
  · intro b hv
    simp [hflags] at hv
  · intro b hbusy
    simp [hflags] at hbusy
  · intro b hv
    simp [hflags] at hv
  · intro t b
    simp [hpc]
  · intro t read dev nblk hp
    simp [hpc] at hp

/-- In every run of clients of one device of the memory disk, a valid buffer that
is not busy has the data of its sector, and `bread` returns a buffer with the data
last written to the sector, or with the initial ones. -/
theorem bread_last_written {s₀ : Sys τ} {es : List (Ev τ)} (h₀ : Start s₀)
    (hr : Run (MemStep d) (s₀, ⟨s₀.cache.disk, fun _ => false⟩) es (s, l)) :
    (∀ b, (s.cache.buf b).flags.valid = true → (s.cache.buf b).flags.busy = false →
      (s.cache.buf b).data = s.cache.disk (s.cache.buf b).num) ∧
    ∀ e s' l', MemStep d (s, l) e (s', l') → ∀ t nblk b,
      (e = .fetch t true d nblk (some b) ∨ e = .retry t true d nblk (some b)) →
      (s'.cache.buf b).dev = d ∧ (s'.cache.buf b).num = nblk ∧
        (s'.cache.buf b).data = l.last nblk := by
  have h : Coherent d s l := hr.invariant (I := fun x => Coherent d x.1 x.2)
    (fun _ _ _ _ h hs => coherent_step hd hm h hs) h₀.coherent
  refine ⟨fun b hv hb => h.data b hv (h.unchanged b hb), ?_⟩
  intro e s' l' hs t nblk b he
  have key : ∀ {o c}, Outcome.ret o = some b → Fs.fetch true d nblk s.cache = .ok (o, c) →
      ((s.proceed t true d nblk o c).cache.buf b).dev = d ∧
      ((s.proceed t true d nblk o c).cache.buf b).num = nblk ∧
      ((s.proceed t true d nblk o c).cache.buf b).data = l.last nblk := by
    intro o c ho hf
    rcases h.fetch hd hm hf with ⟨rfl, rfl⟩ | ⟨b', rfl, hr⟩
    · simp [Outcome.ret] at ho
    · cases ho
      exact ⟨hr.taken.dev, hr.taken.num, hr.data.trans (by rw [h.disk])⟩
  obtain ⟨hs, -, -⟩ := hs
  simp only at hs
  cases hs with
  | fetch hpc hf =>
      simp only [Ev.fetch.injEq, reduceCtorEq, or_false] at he
      obtain ⟨rfl, rfl, rfl, rfl, ho⟩ := he
      exact key ho hf
  | retry hpc hf =>
      simp only [Ev.retry.injEq, reduceCtorEq, false_or] at he
      obtain ⟨rfl, rfl, rfl, rfl, ho⟩ := he
      exact key ho hf
  | _ => simp at he

end

/-- The first `bread` of a sector returns the initial data of the disk. -/
theorem small_bread_initial :
    ∃ b s' l', MemStep 256 (small, ⟨small.cache.disk, fun _ => false⟩)
      (.fetch () true 256 3 (some b)) (s', l') ∧ (s'.cache.buf b).data = small.cache.disk 3 := by
  obtain ⟨b, c, hf⟩ : ∃ b c, fetch true 256 3 small.cache = .ok (.returned b, c) :=
    ⟨_, _, rfl⟩
  have hs : MemStep 256 (small, ⟨small.cache.disk, fun _ => false⟩)
      (.fetch () true 256 3 (some b))
      (small.proceed () true 256 3 (.returned b) c, ⟨small.cache.disk, fun _ => false⟩) :=
    ⟨Step.fetch rfl hf, ⟨rfl, rfl, by decide⟩, rfl⟩
  have h := (bread_last_written (by decide) rfl small_start (Run.nil _)).2 _ _ _ hs () 3 b
    (Or.inl rfl)
  exact ⟨b, _, _, hs, h.2.2⟩

end Fs

end Chunix
