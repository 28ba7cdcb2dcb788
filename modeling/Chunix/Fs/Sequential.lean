import Chunix.Fs.Coherence
import Chunix.Machine.Total

/-!
# The cache in the hands of one task

A file system reads a sector with `bread`, copies the data and gives the buffer
back with `brelse`. While no other task holds a buffer this always succeeds, and
what it copies is the sector of the disk; the cache is not seen at all. A sector
that the disk does not have stops the machine whatever the cache holds.
-/

namespace Chunix

namespace Fs

open Machine Act

/-- `bread` for a task with no other task to wait for: a call that goes to sleep
does not return. -/
def bread (dev nblk : Nat) : Act Cache BufId := do
  match ← fetch true dev nblk with
  | .returned b => return b
  | .asleepGetblk => Act.halt .hang
  | .asleepHdRw _ => Act.halt .hang

/-- The copy of a sector that a file system takes. -/
def readSector (dev nblk : Nat) : Act Cache Sector := do
  let b ← bread dev nblk
  let bp ← Act.gets fun c => c.buf b
  brelse b
  return bp.data

/-- The cache as one idle task sees it that holds no buffer. -/
def lone (c : Cache) : Sys Unit := ⟨c, fun _ => .idle, fun _ => []⟩

/-- No buffer of the cache is held, and the valid ones have the data of their
sectors of the device `d`. -/
def Quiet (d : Nat) (c : Cache) : Prop := Coherent d (lone c) ⟨c.disk, fun _ => false⟩

/-- What a file system sees of the cache: the sectors and how many there are. -/
structure Disk where
  sector : Nat → Sector
  size : Nat

/-- The cache seen as a disk. -/
def quietly (d : Nat) : Abstraction Cache Disk where
  ok := Quiet d
  view c := ⟨c.disk, c.disksize⟩

/-- The cache seen as a disk, with no buffer for a sector that the disk does not
have. -/
def confined (d : Nat) : Abstraction Cache Disk where
  ok c := Quiet d c ∧ ∀ b, (c.buf b).flags.valid = true → (c.buf b).num < c.disksize
  view := (quietly d).view

/-- The cache after `init_buffer`, in front of a given disk. -/
def bootCache (v : Disk) : Cache :=
  initBuffer ⟨fun _ => ⟨0, ⟨false, false, false⟩, 0, none, fun _ => 0⟩, fun _ => .bhead,
    fun _ => .bhead, none, [], v.sector, v.size⟩

theorem quiet_bootCache (d : Nat) (v : Disk) :
    (quietly d).ok (bootCache v) ∧ (quietly d).view (bootCache v) = v := by
  constructor
  · exact Start.coherent (s := lone (bootCache v)) ⟨⟨_, fun _ => rfl, rfl⟩, fun _ => rfl, fun _ => rfl⟩
  · obtain ⟨l, -, -, hdisk, hsize, -⟩ := initBuffer_ring ⟨fun _ => ⟨0, ⟨false, false, false⟩, 0,
      none, fun _ => 0⟩, fun _ => .bhead, fun _ => .bhead, none, [], v.sector, v.size⟩
    simp only [quietly, bootCache, hdisk, hsize]

theorem confined_bootCache (d : Nat) (v : Disk) :
    (confined d).ok (bootCache v) ∧ (confined d).view (bootCache v) = v := by
  refine ⟨⟨(quiet_bootCache d v).1, fun b hv => ?_⟩, (quiet_bootCache d v).2⟩
  obtain ⟨l, -, -, -, -, hbuf⟩ := initBuffer_ring ⟨fun _ => ⟨0, ⟨false, false, false⟩, 0,
    none, fun _ => 0⟩, fun _ => .bhead, fun _ => .bhead, none, [], v.sector, v.size⟩
  simp [bootCache, hbuf] at hv

/-- With a free buffer in the ring `getblk` returns or goes to sleep. -/
theorem getblk_total {dev nblk : Nat} {c : Cache} {l : List BufId} {b : BufId} (hr : Ring c l)
    (hb : b ∈ l) (hbusy : (c.buf b).flags.busy = false) (hdirty : (c.buf b).flags.dirty = false) :
    ∃ g c', getblk dev nblk c = .ok (g, c') := by
  have hlen : l.length < 17 := Nat.lt_succ_of_le (hr.nodup.length_le_card.trans_eq (by simp))
  have hspan' : Linked.Span c.prev c.next .bhead (l.reverse.map .fsbuf) .bhead := by
    rw [List.map_reverse]
    exact hr.span.reverse
  have h₁ := scan_span (c := c)
    (p := fun b => decide ((c.buf b).dev = dev ∧ (c.buf b).num = nblk)) hr.span hlen
  have h₂ := scan_span (c := c)
    (p := fun b => decide ((c.buf b).flags.busy = false ∧ (c.buf b).flags.dirty = false)) hspan'
    (by simpa using hlen)
  rw [getblk, Act.bind_of_ok (show Act.get c = .ok (c, c) from rfl), Act.bind_of_ok h₁]
  cases ho : l.find? (fun b => decide ((c.buf b).dev = dev ∧ (c.buf b).num = nblk)) with
  | some a =>
      by_cases ha : (c.buf a).flags.busy = false
      · exact ⟨_, _, Act.ite_eq_ok.2 (Or.inl ⟨ha, rfl⟩)⟩
      · exact ⟨_, _, Act.ite_eq_ok.2 (Or.inr ⟨ha, rfl⟩)⟩
  | none =>
      simp only
      rw [Act.bind_of_ok h₂]
      cases ho' : l.reverse.find?
          (fun b => decide ((c.buf b).flags.busy = false ∧ (c.buf b).flags.dirty = false)) with
      | none =>
          have := List.find?_eq_none.1 ho' b (List.mem_reverse.2 hb)
          simp [hbusy, hdirty] at this
      | some a => exact ⟨_, _, rfl⟩

/-- The memory disk serves every busy buffer for one of its sectors. -/
theorem memhdRw_total {c : Cache} {b : BufId} (hbusy : (c.buf b).flags.busy = true)
    (hv : (c.buf b).flags.valid = false) (hm : major (c.buf b).dev = memMajor)
    (hn : (c.buf b).num < c.disksize) : ∃ c', memhdRw b c = .ok ((), c') := by
  have hn' : ¬ c.disksize ≤ (c.buf b).num := by omega
  rw [memhdRw, Act.bind_of_ok (show Act.get c = .ok (c, c) from rfl)]
  simp only [hbusy, hv, hm, hn', Bool.true_eq_false, Bool.false_eq_true, false_and, ne_eq,
    not_true_eq_false, if_false]
  by_cases hd : (c.buf b).flags.dirty = true
  · exact ⟨_, Act.ite_eq_ok.2 (Or.inl ⟨hd, rfl⟩)⟩
  · exact ⟨_, Act.ite_eq_ok.2 (Or.inr ⟨hd, rfl⟩)⟩

section

variable {d : Nat} (hd : d < 65536) (hm : major d = memMajor)

include hd hm

omit hd hm in
/-- On a quiet cache `getblk` returns a buffer. -/
theorem Quiet.getblk {c : Cache} (h : Quiet d c) (nblk : Nat) :
    ∃ b c', Fs.getblk d nblk c = .ok (.buf b, c') ∧ GetblkEffect d nblk c (.buf b) c' := by
  obtain ⟨l, hr, hall⟩ : ∃ l, Ring c l ∧ ∀ b, b ∈ l := h.inv.ring
  have hfree : ∀ b, (c.buf b).flags.busy = false := by
    intro b
    by_contra hb
    obtain ⟨t, ht⟩ := (h.inv.busy b).1 (show (c.buf b).flags.busy = true by simpa using hb)
    simp [lone] at ht
  obtain ⟨g, c₁, hg⟩ := @getblk_total d nblk _ _ _ hr (hall 0) (hfree 0)
    (h.inv.dirty 0 (hfree 0))
  have he := getblk_effect hr hall hg
  cases g with
  | asleep =>
      cases he with
      | @wait b _ _ hbusy =>
          rw [hfree b] at hbusy
          simp at hbusy
  | buf b => exact ⟨b, c₁, hg, he⟩

/-- On a quiet cache `bread` of a sector of the disk returns. -/
theorem Quiet.bread {c : Cache} {nblk : Nat} (h : Quiet d c) (hn : nblk < c.disksize) :
    ∃ b c', fetch true d nblk c = .ok (.returned b, c') := by
  obtain ⟨b, c₁, hg, he⟩ := h.getblk nblk
  have ht := he.taken hd
  by_cases hv : (c₁.buf b).flags.valid = false
  · obtain ⟨c₂, hc₂⟩ := memhdRw_total ((ht.busy b).2 (Or.inl rfl)) hv (by rw [ht.dev, hm])
      (by rw [ht.num, he.disk.2]; exact hn)
    have hll : bufLlRw b c₁ = .ok (true, c₂) := by
      refine Act.bind_eq_ok.2 ⟨c₁.buf b, c₁, rfl, Act.ite_eq_ok.2 (Or.inl ⟨?_, ?_⟩)⟩
      · rw [ht.dev, hm]
      · exact Act.bind_eq_ok.2 ⟨(), c₂, hc₂, rfl⟩
    refine ⟨b, c₂, Act.bind_eq_ok.2 ⟨.buf b, c₁, hg, Act.bind_eq_ok.2 ⟨c₁.buf b, c₁, rfl, ?_⟩⟩⟩
    exact Act.ite_eq_ok.2 (Or.inl ⟨⟨rfl, hv⟩, Act.bind_eq_ok.2 ⟨true, c₂, hll, rfl⟩⟩)
  · refine ⟨b, c₁, Act.bind_eq_ok.2 ⟨.buf b, c₁, hg, Act.bind_eq_ok.2 ⟨c₁.buf b, c₁, rfl, ?_⟩⟩⟩
    exact Act.ite_eq_ok.2 (Or.inr ⟨fun h => hv h.2, rfl⟩)

/-- A sector of the disk can be read, and the cache stays quiet. -/
theorem gives_readSector {v : Disk} {nblk : Nat} (hn : nblk < v.size) :
    Gives (quietly d) v (readSector d nblk) (v.sector nblk) v := by
  rintro c (hq : Quiet d c) rfl
  obtain ⟨b, c₁, hf⟩ := hq.bread hd hm hn
  have hc₁ := hq.proceed hd hm (t := ()) (by simp [lone]) hf
  rcases hq.fetch hd hm hf with ⟨hne, -⟩ | ⟨b', hb, hread⟩
  · simp at hne
  cases hb
  have hbusy : (c₁.buf b).flags.busy = true := (hread.taken.busy b).2 (Or.inl rfl)
  obtain ⟨c₂, hc₂⟩ : ∃ c₂, brelse b c₁ = .ok ((), c₂) := ⟨_, brelse_eq_ok.2 ⟨hbusy, rfl⟩⟩
  have hdisk : c₂.disk = c₁.disk ∧ c₂.disksize = c₁.disksize := by
    obtain ⟨-, rfl⟩ := brelse_eq_ok.1 hc₂
    exact ⟨rfl, rfl⟩
  have hheld : b ∈ ((lone c).proceed () true d nblk (.returned b) c₁).held () := by
    simp [Sys.proceed]
  have hend := hc₁.brelse (t := ()) rfl hc₂ (hc₁.inv.brelse (by simp [Sys.proceed]) hheld hc₂)
  have hdisk' : c₂.disk = c.disk := hdisk.1.trans hread.disk
  refine ⟨_, c₂, ?_, ?_, hread.data, ?_⟩
  · refine Act.bind_eq_ok.2 ⟨b, c₁, Act.bind_eq_ok.2 ⟨.returned b, c₁, hf, rfl⟩, ?_⟩
    exact Act.bind_eq_ok.2 ⟨c₁.buf b, c₁, rfl, Act.bind_eq_ok.2 ⟨(), c₂, hc₂, rfl⟩⟩
  · change Coherent d (lone c₂) ⟨c₂.disk, fun _ => false⟩
    rw [hdisk']
    convert hend using 1
    simp [lone, Sys.proceed]
  · have hsize : c₂.disksize = c.disksize := hdisk.2.trans hread.disksize
    simp only [quietly, hdisk', hsize]

/-- A buffer that has been read and given back is one for a sector of the disk. -/
theorem readSector_inside {c c' : Cache} {nblk : Nat} {r : Sector} (hq : Quiet d c)
    (hin : ∀ b, (c.buf b).flags.valid = true → (c.buf b).num < c.disksize)
    (hn : nblk < c.disksize) (h : readSector d nblk c = .ok (r, c')) :
    ∀ b, (c'.buf b).flags.valid = true → (c'.buf b).num < c'.disksize := by
  obtain ⟨b, c₁, hb, h⟩ := Act.bind_eq_ok.1 h
  obtain ⟨o, _, hf, hb⟩ := Act.bind_eq_ok.1 hb
  obtain ⟨_, _, hg, h⟩ := Act.bind_eq_ok.1 h
  obtain ⟨rfl, rfl⟩ := Act.gets_eq_ok.1 hg
  obtain ⟨_, _, hr, h⟩ := Act.bind_eq_ok.1 h
  obtain ⟨-, rfl⟩ := Act.pure_eq_ok.1 h
  obtain ⟨-, rfl⟩ := brelse_eq_ok.1 hr
  rcases hq.fetch hd hm hf with ⟨rfl, -⟩ | ⟨b', rfl, hread⟩
  · simp at hb
  obtain ⟨rfl, rfl⟩ := Act.pure_eq_ok.1 hb
  intro b hv
  by_cases hbb : b = b'
  · subst hbb
    simp only [Cache.setBuf, Cache.unlink, Cache.linkFirst, Function.update_self, hread.taken.num,
      hread.disksize]
    exact hn
  · simp only [Cache.setBuf, Cache.unlink, Cache.linkFirst, Function.update_of_ne hbb,
      hread.other b hbb, hread.disksize] at hv ⊢
    exact hin b hv

/-- A sector that the disk does not have cannot be read. -/
theorem readSector_outside {c : Cache} {nblk : Nat} (hq : Quiet d c)
    (hin : ∀ b, (c.buf b).flags.valid = true → (c.buf b).num < c.disksize)
    (hn : c.disksize ≤ nblk) :
    readSector d nblk c = .error (.panic "memhd_rw: sector out of range") := by
  obtain ⟨b, c₁, hg, he⟩ := hq.getblk nblk
  have ht := he.taken hd
  have hv : (c₁.buf b).flags.valid = false := by
    cases he with
    | hit hdev hnum hbusy =>
        by_contra hv
        have := hin b (by simpa using hv)
        omega
    | miss => simp
  have hbusy : (c₁.buf b).flags.busy = true := (ht.busy b).2 (Or.inl rfl)
  have hrw : memhdRw b c₁ = .error (.panic "memhd_rw: sector out of range") := by
    rw [memhdRw, Act.bind_of_ok (show Act.get c₁ = .ok (c₁, c₁) from rfl)]
    simp only [hbusy, hv, ht.dev, hm, ht.num, he.disk.2, hn, Bool.true_eq_false,
      Bool.false_eq_true, false_and, ne_eq, not_true_eq_false, if_false, if_true]
    rfl
  have hll : bufLlRw b c₁ = .error (.panic "memhd_rw: sector out of range") := by
    rw [bufLlRw, Act.bind_of_ok (show Act.gets _ c₁ = .ok (c₁.buf b, c₁) from rfl),
      if_pos (by rw [ht.dev, hm]), Act.bind_of_error hrw]
  have hf : fetch true d nblk c = .error (.panic "memhd_rw: sector out of range") := by
    rw [fetch, Act.bind_of_ok hg]
    simp only
    rw [Act.bind_of_ok (show Act.gets _ c₁ = .ok (c₁.buf b, c₁) from rfl),
      if_pos ⟨trivial, hv⟩, Act.bind_of_error hll]
  exact Act.bind_of_error (Act.bind_of_error hf)

/-- A sector of the disk can be read, and the cache stays confined. -/
theorem gives_readSector_confined {v : Disk} {nblk : Nat} (hn : nblk < v.size) :
    Gives (confined d) v (readSector d nblk) (v.sector nblk) v := by
  rintro c ⟨hq, hin⟩ rfl
  obtain ⟨b, c', hr, hok, hb, hview⟩ := gives_readSector hd hm hn c hq rfl
  exact ⟨b, c', hr, ⟨hok, readSector_inside hd hm hq hin hn hr⟩, hb, hview⟩

/-- What the reading of a sector comes to depends on the disk alone. -/
theorem steady_readSector (v : Disk) (nblk : Nat) : Steady (confined d) v (readSector d nblk) := by
  by_cases hn : nblk < v.size
  · refine ⟨.ok (v.sector nblk), fun c hok hv => ?_⟩
    obtain ⟨_, c', hr, hok', rfl, hview⟩ := gives_readSector_confined hd hm hn c hok hv
    exact ⟨c', hr, hok', hview⟩
  · refine ⟨.error (.panic "memhd_rw: sector out of range"), ?_⟩
    rintro c ⟨hq, hin⟩ rfl
    exact readSector_outside hd hm hq hin (Nat.le_of_not_lt hn)

end

end Fs

end Chunix
