import Chunix.Fs.Buffer
import Mathlib.Data.Fintype.Card

/-!
# What the operations of the cache do

One lemma for each operation says what has changed when it returns. The scans of
`getblk` see every buffer because the ring holds every buffer; `brelse` moves a
buffer to the front of the ring; the drivers never touch the ring, the identity
of a buffer or its bit `BUF_BUSY`.
-/

namespace Chunix

namespace Fs

open Machine Linked

/-- The ring through `bhead` holds the buffers `l`, from the first to the last. -/
structure Ring (c : Cache) (l : List BufId) : Prop where
  span : Span c.next c.prev .bhead (l.map .fsbuf) .bhead
  nodup : l.Nodup

/-- The nodes of the ring are pairwise different. -/
theorem nodup_nodes {l : List BufId} (h : l.Nodup) : (Ref.bhead :: l.map .fsbuf).Nodup := by
  refine List.nodup_cons.2 ⟨by simp, h.map ?_⟩
  intro b b' hb
  cases hb
  rfl

@[simp] theorem updBuf_eq_ok {b : BufId} {f : Buf → Buf} {c c' : Cache} {u : Unit} :
    updBuf b f c = .ok (u, c') ↔ c.setBuf b f = c' := Act.modify_eq_ok

@[simp] theorem setBuf_next (c : Cache) (b : BufId) (f : Buf → Buf) :
    (c.setBuf b f).next = c.next := rfl

@[simp] theorem setBuf_prev (c : Cache) (b : BufId) (f : Buf → Buf) :
    (c.setBuf b f).prev = c.prev := rfl

@[simp] theorem setBuf_disk (c : Cache) (b : BufId) (f : Buf → Buf) :
    (c.setBuf b f).disk = c.disk := rfl

@[simp] theorem setBuf_disksize (c : Cache) (b : BufId) (f : Buf → Buf) :
    (c.setBuf b f).disksize = c.disksize := rfl

@[simp] theorem setBuf_self (c : Cache) (b : BufId) (f : Buf → Buf) :
    (c.setBuf b f).buf b = f (c.buf b) := Function.update_self ..

theorem setBuf_of_ne {c : Cache} {b b' : BufId} {f : Buf → Buf} (h : b' ≠ b) :
    (c.setBuf b f).buf b' = c.buf b' := Function.update_of_ne h ..

/-- A scan along a span finds the first buffer with the property. -/
theorem scan_span {c : Cache} {step back : Ref → Ref} {p : BufId → Bool} {l : List BufId} {a : Ref}
    {n : Nat} (h : Span step back a (l.map .fsbuf) .bhead) (hn : l.length < n) :
    scan step p n (step a) c = .ok (l.find? p, c) := by
  induction l generalizing a n with
  | nil =>
      cases n with
      | zero => omega
      | succ n =>
          rw [h.1]
          rfl
  | cons b l ih =>
      cases n with
      | zero => omega
      | succ n =>
          rw [h.1, scan, List.find?_cons]
          cases hb : p b with
          | true => rfl
          | false =>
              simp only [Bool.false_eq_true, if_false]
              exact ih h.2.2 (Nat.lt_of_succ_lt_succ hn)

/-- The three ways in which `getblk` comes to its end. -/
inductive GetblkEffect (dev nblk : Nat) (c : Cache) : Got → Cache → Prop
  | hit {b} (hdev : (c.buf b).dev = dev) (hnum : (c.buf b).num = nblk)
      (hbusy : (c.buf b).flags.busy = false) :
      GetblkEffect dev nblk c (.buf b)
        (c.setBuf b fun bp => { bp with flags := { bp.flags with busy := true } })
  | wait {b} (hdev : (c.buf b).dev = dev) (hnum : (c.buf b).num = nblk)
      (hbusy : (c.buf b).flags.busy = true) : GetblkEffect dev nblk c .asleep c
  | miss {b} (hmiss : ∀ b', ¬ ((c.buf b').dev = dev ∧ (c.buf b').num = nblk))
      (hbusy : (c.buf b).flags.busy = false) (hdirty : (c.buf b).flags.dirty = false) :
      GetblkEffect dev nblk c (.buf b) (c.setBuf b fun bp =>
        { bp with flags := ⟨true, false, false⟩, dev := dev % 65536, num := nblk })

theorem getblk_effect {dev nblk : Nat} {c c' : Cache} {l : List BufId} {g : Got} (hr : Ring c l)
    (hall : ∀ b, b ∈ l) (h : getblk dev nblk c = .ok (g, c')) : GetblkEffect dev nblk c g c' := by
  have hlen : l.length < 17 := Nat.lt_succ_of_le (hr.nodup.length_le_card.trans_eq (by simp))
  have hspan' : Span c.prev c.next .bhead (l.reverse.map .fsbuf) .bhead := by
    rw [List.map_reverse]
    exact hr.span.reverse
  rw [getblk, Act.bind_eq_ok] at h
  obtain ⟨_, _, hget, h⟩ := h
  obtain ⟨rfl, rfl⟩ := Act.get_eq_ok.1 hget
  obtain ⟨o, _, hs, h⟩ := Act.bind_eq_ok.1 h
  rw [scan_span hr.span hlen] at hs
  cases hs
  cases ho : l.find? (fun b => decide ((c.buf b).dev = dev ∧ (c.buf b).num = nblk)) with
  | some b =>
      rw [ho] at h
      have hb := List.find?_some ho
      simp only [decide_eq_true_eq] at hb
      rcases Act.ite_eq_ok.1 h with ⟨hbusy, h⟩ | ⟨hbusy, h⟩
      · obtain ⟨_, _, hu, h⟩ := Act.bind_eq_ok.1 h
        obtain ⟨rfl, rfl⟩ := Act.pure_eq_ok.1 h
        rw [← updBuf_eq_ok.1 hu]
        exact .hit hb.1 hb.2 hbusy
      · obtain ⟨rfl, rfl⟩ := Act.pure_eq_ok.1 h
        exact .wait hb.1 hb.2 (by simpa using hbusy)
  | none =>
      rw [ho] at h
      have hmiss : ∀ b, ¬ ((c.buf b).dev = dev ∧ (c.buf b).num = nblk) := by
        intro b hb
        have := List.find?_eq_none.1 ho b (hall b)
        simp [hb] at this
      obtain ⟨o', _, hs, h⟩ := Act.bind_eq_ok.1 h
      rw [scan_span hspan' (by simpa using hlen)] at hs
      cases hs
      cases ho' : l.reverse.find?
          (fun b => decide ((c.buf b).flags.busy = false ∧ (c.buf b).flags.dirty = false)) with
      | some b =>
          rw [ho'] at h
          have hb := List.find?_some ho'
          simp only [decide_eq_true_eq] at hb
          obtain ⟨_, _, hu, h⟩ := Act.bind_eq_ok.1 h
          obtain ⟨rfl, rfl⟩ := Act.pure_eq_ok.1 h
          rw [← updBuf_eq_ok.1 hu]
          exact .miss hmiss hb.1 hb.2
      | none =>
          rw [ho'] at h
          exact absurd h (by simp)

/-- What a driver leaves alone: the ring, the identity of every buffer and its
bit `BUF_BUSY`; and it makes no buffer dirty. -/
structure Served (c c' : Cache) : Prop where
  next : c'.next = c.next
  prev : c'.prev = c.prev
  disksize : c'.disksize = c.disksize
  dev : ∀ b, (c'.buf b).dev = (c.buf b).dev
  num : ∀ b, (c'.buf b).num = (c.buf b).num
  busy : ∀ b, (c'.buf b).flags.busy = (c.buf b).flags.busy
  dirty : ∀ b, (c'.buf b).flags.dirty = true → (c.buf b).flags.dirty = true

theorem Served.of_buf {c c' : Cache} (hn : c'.next = c.next) (hp : c'.prev = c.prev)
    (hd : c'.disksize = c.disksize) (hb : c'.buf = c.buf) : Served c c' := by
  refine ⟨hn, hp, hd, ?_, ?_, ?_, ?_⟩ <;> intro b <;> rw [hb]
  exact id

theorem Served.trans {c₁ c₂ c₃ : Cache} (h : Served c₁ c₂) (h' : Served c₂ c₃) : Served c₁ c₃ :=
  ⟨h'.next.trans h.next, h'.prev.trans h.prev, h'.disksize.trans h.disksize,
    fun b => (h'.dev b).trans (h.dev b), fun b => (h'.num b).trans (h.num b),
    fun b => (h'.busy b).trans (h.busy b), fun b hd => h.dirty b (h'.dirty b hd)⟩

theorem Served.setBuf {c : Cache} {b : BufId} {f : Buf → Buf} (hdev : (f (c.buf b)).dev = (c.buf b).dev)
    (hnum : (f (c.buf b)).num = (c.buf b).num)
    (hbusy : (f (c.buf b)).flags.busy = (c.buf b).flags.busy)
    (hdirty : (f (c.buf b)).flags.dirty = true → (c.buf b).flags.dirty = true) :
    Served c (c.setBuf b f) := by
  refine ⟨rfl, rfl, rfl, ?_, ?_, ?_, ?_⟩ <;> intro b' <;> by_cases hb : b' = b
  · rw [hb, setBuf_self, hdev]
  · rw [setBuf_of_ne hb]
  · rw [hb, setBuf_self, hnum]
  · rw [setBuf_of_ne hb]
  · rw [hb, setBuf_self, hbusy]
  · rw [setBuf_of_ne hb]
  · rw [hb, setBuf_self]
    exact hdirty
  · rw [setBuf_of_ne hb]
    exact id

/-- What `memhd_rw` does: the sector is written if the buffer is dirty and read
otherwise. -/
structure Transferred (b : BufId) (c c' : Cache) : Prop where
  served : Served c c'
  other : ∀ b', b' ≠ b → c'.buf b' = c.buf b'
  flags : (c'.buf b).flags = ⟨(c.buf b).flags.busy, true, false⟩
  range : (c.buf b).num < c.disksize
  disk : c'.disk = if (c.buf b).flags.dirty then Function.update c.disk (c.buf b).num (c.buf b).data
    else c.disk
  data : (c'.buf b).data = if (c.buf b).flags.dirty then (c.buf b).data
    else c.disk (c.buf b).num

theorem memhdRw_transferred {b : BufId} {c c' : Cache} {u : Unit}
    (h : memhdRw b c = .ok (u, c')) : Transferred b c c' := by
  rw [memhdRw, Act.bind_eq_ok] at h
  obtain ⟨_, _, hget, h⟩ := h
  obtain ⟨rfl, rfl⟩ := Act.get_eq_ok.1 hget
  simp only [Act.ite_eq_ok, Act.bind_eq_ok, updBuf_eq_ok, Act.modify_eq_ok, Act.halt_eq_ok,
    and_false, false_or] at h
  obtain ⟨-, -, -, hrange, ⟨hd, _, _, rfl, _, _, rfl, rfl⟩ | ⟨hd, _, _, rfl, rfl⟩⟩ := h
  · have h₁ : Served c (c.setBuf b fun bp => { bp with flags := { bp.flags with dirty := false } }) :=
      .setBuf rfl rfl rfl (by simp)
    refine ⟨h₁.trans (.trans ?_ (.setBuf rfl rfl rfl id)), ?_, ?_, by omega, ?_, ?_⟩
    · exact .of_buf rfl rfl rfl rfl
    · intro b' hb
      simp only [setBuf_of_ne hb]
    · simp [Cache.setBuf]
    · simp [hd]
    · simp [Cache.setBuf, hd]
  · simp only [Bool.not_eq_true] at hd
    have h₁ : Served c (c.setBuf b fun bp => { bp with data := c.disk (c.buf b).num }) :=
      .setBuf rfl rfl rfl (by simp)
    refine ⟨h₁.trans (.setBuf rfl rfl rfl id), ?_, ?_, by omega, ?_, ?_⟩
    · intro b' hb
      rw [setBuf_of_ne hb, setBuf_of_ne hb]
    · simp [hd]
    · simp [hd]
    · simp [hd]

theorem hdDorw_served {b : BufId} {c c' : Cache} {u : Unit} (h : hdDorw b c = .ok (u, c')) :
    Served c c' := by
  simp only [hdDorw, Act.bind_eq_ok, Act.gets_eq_ok, Act.modify_eq_ok] at h
  obtain ⟨_, _, ⟨rfl, rfl⟩, rfl⟩ := h
  exact .of_buf rfl rfl rfl rfl

theorem hdRw_served {b : BufId} {c c' : Cache} {u : Unit} (h : hdRw b c = .ok (u, c')) :
    Served c c' := by
  simp only [hdRw, Act.bind_eq_ok, Act.gets_eq_ok, Act.get_eq_ok, Act.ite_eq_ok, updBuf_eq_ok,
    Act.halt_eq_ok, and_false, false_or] at h
  obtain ⟨_, _, ⟨rfl, rfl⟩, -, -, _, c₁, rfl, _, _, ⟨rfl, rfl⟩, h⟩ := h
  have h₁ : Served c (c.setBuf b fun bp => { bp with hdnext := none }) :=
    .setBuf rfl rfl rfl (by simp)
  refine h₁.trans ?_
  generalize c.setBuf b (fun bp => { bp with hdnext := none }) = c₁ at h
  have hstart : ∀ {c₂}, (do if (← Act.gets Cache.hdqueue) = some b then hdDorw b) c₂ =
      .ok (u, c') → Served c₂ c' := by
    intro c₂ h
    simp only [Act.bind_eq_ok, Act.gets_eq_ok, Act.ite_eq_ok, Act.pure_eq_ok] at h
    obtain ⟨_, _, ⟨rfl, rfl⟩, ⟨-, h⟩ | ⟨-, -, rfl⟩⟩ := h
    · exact hdDorw_served h
    · exact .of_buf rfl rfl rfl rfl
  cases hq : follow (fun b => (c₁.buf b).hdnext) 16 c₁.hdqueue with
  | none => simp [hq] at h
  | some l =>
      rw [hq] at h
      cases hl : l.getLast? with
      | none =>
          simp only [hl] at h
          obtain ⟨_, c₂, h₂, h⟩ := Act.bind_eq_ok.1 h
          rw [Act.modify_eq_ok] at h₂
          subst h₂
          refine Served.trans ?_ (hstart h)
          exact .of_buf rfl rfl rfl rfl
      | some a =>
          simp only [hl] at h
          obtain ⟨_, c₂, h₂, h⟩ := Act.bind_eq_ok.1 h
          rw [updBuf_eq_ok] at h₂
          subst h₂
          exact .trans (.setBuf rfl rfl rfl fun h => h) (hstart h)

/-- The end of `hd_isr`: the buffer is marked, and the command for the next one is sent. -/
def hdFinish (b : BufId) (next : Option BufId) : Act Cache Unit := do
  updBuf b fun bp => { bp with flags := { bp.flags with valid := true, dirty := false } }
  match next with
  | none => return
  | some b => hdDorw b

theorem hdFinish_served {b : BufId} {next : Option BufId} {c c' : Cache} {u : Unit}
    (h : hdFinish b next c = .ok (u, c')) : Served c c' := by
  unfold hdFinish at h
  obtain ⟨_, c₃, h₃, h⟩ := Act.bind_eq_ok.1 h
  have hs₃ : Served c c₃ := by
    rw [← updBuf_eq_ok.1 h₃]
    exact .setBuf rfl rfl rfl (by simp)
  refine hs₃.trans ?_
  cases next with
  | none =>
      obtain ⟨-, rfl⟩ := Act.pure_eq_ok.1 h
      exact .of_buf rfl rfl rfl rfl
  | some b' => exact hdDorw_served h

/-- The interrupt handler serves one buffer. -/
theorem hdIsr_served {input : Sector} {c c' : Cache} {u : Unit} (h : hdIsr input c = .ok (u, c')) :
    Served c c' := by
  obtain ⟨q, _, hq, h⟩ := Act.bind_eq_ok.1 h
  obtain ⟨rfl, rfl⟩ := Act.gets_eq_ok.1 hq
  cases hq : c.hdqueue with
  | none =>
      rw [hq] at h
      obtain ⟨-, rfl⟩ := Act.pure_eq_ok.1 h
      exact .of_buf rfl rfl rfl rfl
  | some b =>
      rw [hq] at h
      obtain ⟨bp, _, hb, h⟩ := Act.bind_eq_ok.1 h
      obtain ⟨rfl, rfl⟩ := Act.gets_eq_ok.1 hb
      obtain ⟨_, c₁, h₁, h⟩ := Act.bind_eq_ok.1 h
      have hs₁ : Served c c₁ := by
        rw [← Act.modify_eq_ok.1 h₁]
        exact .of_buf rfl rfl rfl rfl
      refine hs₁.trans ?_
      rcases Act.ite_eq_ok.1 h with ⟨-, h⟩ | ⟨-, h⟩
      · obtain ⟨_, c₂, h₂, h⟩ := Act.bind_eq_ok.1 h
        rw [updBuf_eq_ok] at h₂
        subst h₂
        exact .trans (.setBuf rfl rfl rfl fun h => h) (hdFinish_served h)
      · exact hdFinish_served h

/-- What `buf_ll_rw` does, with its result. -/
inductive LlRwEffect (b : BufId) (c c' : Cache) : Bool → Prop
  | mem (hm : major (c.buf b).dev = memMajor) (h : Transferred b c c') : LlRwEffect b c c' true
  | hd (hm : major (c.buf b).dev = hdMajor) (h : Served c c') :
      LlRwEffect b c c' (hdDone (c'.buf b))

theorem bufLlRw_effect {b : BufId} {c c' : Cache} {done : Bool}
    (h : bufLlRw b c = .ok (done, c')) : LlRwEffect b c c' done := by
  simp only [bufLlRw, Act.bind_eq_ok, Act.gets_eq_ok, Act.ite_eq_ok, Act.pure_eq_ok,
    Act.halt_eq_ok, and_false, or_false] at h
  obtain ⟨_, _, ⟨rfl, rfl⟩, ⟨hm, _, _, h, rfl, rfl⟩ | ⟨-, hm, _, _, h, _, _, ⟨rfl, rfl⟩, rfl, rfl⟩⟩ := h
  · exact .mem hm (memhdRw_transferred h)
  · exact .hd hm (hdRw_served h)

theorem LlRwEffect.served {b : BufId} {c c' : Cache} {done : Bool} (h : LlRwEffect b c c' done) :
    Served c c' := by
  cases h with
  | mem _ h => exact h.served
  | hd _ h => exact h

/-- A buffer is not dirty when `buf_ll_rw` has returned. -/
theorem LlRwEffect.dirty {b : BufId} {c c' : Cache} (h : LlRwEffect b c c' true) :
    (c'.buf b).flags.dirty = false := by
  generalize hd : true = done at h
  cases h with
  | mem _ h => rw [h.flags]
  | hd _ h =>
      simp only [hdDone, Bool.true_eq, Bool.and_eq_true, Bool.not_eq_true'] at hd
      exact hd.2

theorem Ring.linkFirst {c : Cache} {l : List BufId} {b : BufId} (h : Ring c l) (hb : b ∉ l) :
    Ring (c.linkFirst (.fsbuf b)) (b :: l) := by
  have hb' : Ref.fsbuf b ∉ Ref.bhead :: l.map .fsbuf := by simpa using hb
  have hhead : Function.update c.next (.fsbuf b) (c.next .bhead) .bhead = c.next .bhead :=
    Function.update_of_ne (by simp) _ _
  refine ⟨?_, List.nodup_cons.2 ⟨hb, h.nodup⟩⟩
  have := h.span.insert (nodup_nodes h.nodup) hb'
  simpa only [Cache.linkFirst, hhead, List.map_cons] using this

theorem Ring.unlink {c : Cache} {l r : List BufId} {b : BufId} (h : Ring c (l ++ b :: r)) :
    Ring (c.unlink (.fsbuf b)) (l ++ r) := by
  have hnd := nodup_nodes h.nodup
  have hspan := h.span
  rw [List.map_append, List.map_cons] at hspan hnd
  -- The first write does not touch `bp->prev`, which the second one reads.
  have hne : c.next (.fsbuf b) ≠ .fsbuf b := by
    intro he
    obtain ⟨-, hr⟩ := span_append.1 hspan
    have hb := (List.nodup_append'.1 (List.nodup_cons.1 hnd).2).2.1
    cases r with
    | nil => exact absurd (he.symm.trans hr.1) (by simp)
    | cons d r =>
        have := he.symm.trans hr.1
        exact (List.nodup_cons.1 hb).1 (by simp [this])
  have hp : Function.update c.prev (c.next (.fsbuf b)) (c.prev (.fsbuf b)) (.fsbuf b) =
      c.prev (.fsbuf b) := Function.update_of_ne hne.symm _ _
  refine ⟨?_, (List.nodup_cons.1 (List.perm_middle.nodup_iff.1 h.nodup)).2⟩
  simp only [Cache.unlink, hp, List.map_append]
  exact hspan.unlink hnd

/-- `brelse` moves the buffer to the front of the ring. -/
theorem Ring.toFront {c : Cache} {l r : List BufId} {b : BufId} (h : Ring c (l ++ b :: r)) :
    Ring ((c.unlink (.fsbuf b)).linkFirst (.fsbuf b)) (b :: (l ++ r)) :=
  h.unlink.linkFirst (List.nodup_cons.1 (List.perm_middle.nodup_iff.1 h.nodup)).1

theorem brelse_eq_ok {b : BufId} {c c' : Cache} {u : Unit} :
    brelse b c = .ok (u, c') ↔ (c.buf b).flags.busy = true ∧
      ((c.unlink (.fsbuf b)).linkFirst (.fsbuf b)).setBuf b
        (fun bp => { bp with flags := { bp.flags with busy := false } }) = c' := by
  simp [brelse, Act.bind_eq_ok, Act.ite_eq_ok]

theorem bwrite_eq_ok {b : BufId} {c c' : Cache} {done : Bool} :
    bwrite b c = .ok (done, c') ↔ (c.buf b).flags.busy = true ∧
      bufLlRw b (c.setBuf b fun bp => { bp with flags := { bp.flags with dirty := true } }) =
        .ok (done, c') := by
  simp [bwrite, Act.bind_eq_ok, Act.ite_eq_ok]

/-- The loop of `init_buffer` puts its buffers into the ring and touches nothing
else of a buffer than `dev`. -/
theorem initBuffer_loop {l : List BufId} (bs : List BufId) {c : Cache} (h : Ring c l)
    (hd : (bs ++ l).Nodup) :
    ∃ c', bs.foldl (fun c b => (c.setBuf b fun bp => { bp with dev := noDev }).linkFirst
        (.fsbuf b)) c = c' ∧ Ring c' (bs.reverse ++ l) ∧ c'.disk = c.disk ∧
      c'.disksize = c.disksize ∧
      ∀ b, c'.buf b = if b ∈ bs then { c.buf b with dev := noDev } else c.buf b := by
  induction bs generalizing l c with
  | nil => exact ⟨c, rfl, h, rfl, rfl, fun b => by simp⟩
  | cons a bs ih =>
      rw [List.cons_append, List.nodup_cons, List.mem_append, not_or] at hd
      obtain ⟨⟨hab, hal⟩, hd⟩ := hd
      have h₁ : Ring (c.setBuf a fun bp => { bp with dev := noDev }) l := ⟨h.span, h.nodup⟩
      have hd' : (bs ++ a :: l).Nodup :=
        List.perm_middle.nodup_iff.2 (List.nodup_cons.2 ⟨by simp [hab, hal], hd⟩)
      obtain ⟨c', he, hr, hdisk, hsize, hbuf⟩ := ih (h₁.linkFirst hal) hd'
      refine ⟨c', he, by simpa using hr, hdisk, hsize, fun b => ?_⟩
      rw [hbuf b]
      by_cases hb : b = a
      · simp [hb, hab, Cache.linkFirst]
      · simp [hb, Cache.linkFirst, setBuf_of_ne hb]

theorem initBuffer_ring (c : Cache) :
    ∃ l, Ring (initBuffer c) l ∧ (∀ b, b ∈ l) ∧ (initBuffer c).disk = c.disk ∧
      (initBuffer c).disksize = c.disksize ∧
      ∀ b, (initBuffer c).buf b = { c.buf b with dev := noDev } := by
  have h₀ : Ring { c with
      next := Function.update c.next .bhead .bhead
      prev := Function.update c.prev .bhead .bhead } [] := ⟨by simp [Span], List.nodup_nil⟩
  obtain ⟨c', he, hr, hdisk, hsize, hbuf⟩ := initBuffer_loop (List.finRange 16) h₀
    (by simpa using List.nodup_finRange 16)
  have hi : initBuffer c = c' := he
  rw [hi]
  exact ⟨_, hr, by simp, hdisk, hsize, fun b => by rw [hbuf]; simp⟩

end Fs

end Chunix
