import Chunix.Fs.Sharing
import Chunix.Linked.Recency

/-!
# Which buffer is taken

`getblk` looks for a buffer from the end of the ring, and `brelse` moves a buffer to
its front. So the ring is ordered by the last releases, and a buffer for a sector
that is not in the cache is one that was never released or, if there is none, the one
whose last release is the oldest.
-/

namespace Chunix

namespace Fs

open Machine Linked

/-- What happens to the cache: a call of `getblk` or `bread`, or one that is resumed,
with what it comes to; a change of the data of a buffer; a call of `bwrite` or
`brelse`; or an interrupt of the disk. -/
inductive Op
  | fetch (read : Bool) (dev nblk : Nat) (o : Outcome)
  | change (b : BufId) (data : Sector)
  | bwrite (b : BufId)
  | brelse (b : BufId)
  | isr (input : Sector)

/-- The cache before and after. Every buffer may be written or released at any time,
as long as the calls do not panic. -/
inductive Use : Cache → Op → Cache → Prop
  | fetch {c c' read dev nblk o} (h : fetch read dev nblk c = .ok (o, c')) :
      Use c (.fetch read dev nblk o) c'
  | change {c b data} : Use c (.change b data) (c.setBuf b fun bp => { bp with data := data })
  | bwrite {c c' b done} (h : bwrite b c = .ok (done, c')) : Use c (.bwrite b) c'
  | brelse {c c' b} (h : brelse b c = .ok ((), c')) : Use c (.brelse b) c'
  | isr {c c' input} (h : hdIsr input c = .ok ((), c')) : Use c (.isr input) c'

/-- The buffers that were released, in order. -/
def releases : List Op → List BufId
  | [] => []
  | .brelse b :: es => b :: releases es
  | _ :: es => releases es

theorem releases_append (es es' : List Op) : releases (es ++ es') = releases es ++ releases es' := by
  induction es with
  | nil => rfl
  | cons e es ih =>
      cases e with
      | brelse b => rw [List.cons_append, releases, releases, ih, List.cons_append]
      | _ => exact ih

/-- A buffer that `getblk` may take for another sector. -/
def Evictable (c : Cache) (b : BufId) : Prop :=
  (c.buf b).flags.busy = false ∧ (c.buf b).flags.dirty = false

instance (c : Cache) (b : BufId) : Decidable (Evictable c b) := inferInstanceAs (Decidable (_ ∧ _))

section

variable {c c' : Cache} {l : List BufId} {b : BufId} {dev nblk : Nat}

theorem FetchEffect.ring {read : Bool} {o : Outcome} (h : FetchEffect read dev nblk c c' o)
    (hr : Ring c l) : Ring c' l := by
  have hgot : ∀ {g c₁}, GetblkEffect dev nblk c g c₁ → Ring c₁ l := by
    intro g c₁ hg
    cases hg with
    | hit => exact ⟨hr.span, hr.nodup⟩
    | wait => exact hr
    | miss => exact ⟨hr.span, hr.nodup⟩
  cases h with
  | asleep he => rwa [he]
  | got hg => exact hgot hg
  | read hg _ hl => exact hl.served.ring (hgot hg)
  | waits hg hl => exact hl.served.ring (hgot hg)

/-- The ring holds every buffer, ordered by the last releases. -/
def Ordered (c : Cache) (es : List Op) : Prop :=
  ∃ l, Ring c l ∧ (∀ b, b ∈ l) ∧ Recent (releases es) l

theorem ordered_initBuffer (c : Cache) : Ordered (initBuffer c) [] := by
  obtain ⟨l, hr, hall, -⟩ := initBuffer_ring c
  exact ⟨l, hr, hall, recent_nil l⟩

/-- The step lemma. -/
theorem Ordered.use {es : List Op} {e : Op} (h : Ordered c es) (hu : Use c e c') :
    Ordered c' (es ++ [e]) := by
  obtain ⟨l, hr, hall, hrecent⟩ := h
  have hsame : ∀ {e'}, releases [e'] = [] → Ring c' l → Ordered c' (es ++ [e']) := by
    intro e' hno hr'
    refine ⟨l, hr', hall, ?_⟩
    rw [releases_append, hno, List.append_nil]
    exact hrecent
  cases hu with
  | fetch h => exact hsame rfl ((fetch_effect hr hall h).ring hr)
  | change => exact hsame rfl ⟨hr.span, hr.nodup⟩
  | bwrite h =>
      obtain ⟨-, hll⟩ := bwrite_eq_ok.1 h
      exact hsame rfl ((bufLlRw_effect hll).served.ring ⟨hr.span, hr.nodup⟩)
  | isr h => exact hsame rfl ((hdIsr_served h).ring hr)
  | @brelse _ b h =>
      obtain ⟨-, rfl⟩ := brelse_eq_ok.1 h
      obtain ⟨l₁, l₂, rfl⟩ := List.append_of_mem (hall b)
      have hfront := hr.toFront
      refine ⟨b :: (l₁ ++ l₂), ⟨hfront.span, hfront.nodup⟩, fun b' => ?_, ?_⟩
      · exact List.perm_middle.mem_iff.1 (hall b')
      · rw [releases_append]
        exact hrecent.toFront hr.nodup

/-- The run lemma. -/
theorem ordered_run {c₀ : Cache} {es : List Op} (h : Run Use c₀ es c) :
    ∀ {es₀ : List Op}, Ordered c₀ es₀ → Ordered c (es₀ ++ es) := by
  induction h with
  | nil =>
      intro es₀ h₀
      rwa [List.append_nil]
  | @cons c₀ c₁ c e es hu _ ih =>
      intro es₀ h₀
      rw [← List.singleton_append, ← List.append_assoc]
      exact ih (h₀.use hu)

/-- What `getblk` does when no buffer is for the sector. -/
theorem getblk_miss (hr : Ring c l) (hmiss : ∀ b, ¬ ((c.buf b).dev = dev ∧ (c.buf b).num = nblk)) :
    getblk dev nblk c =
      match l.reverse.find? fun b => decide (Evictable c b) with
      | some b => .ok (.buf b, c.setBuf b fun bp =>
          { bp with flags := ⟨true, false, false⟩, dev := dev % 65536, num := nblk })
      | none => .error (.panic "getblk: no buffers available") := by
  have hlen : l.length < 17 := Nat.lt_succ_of_le (hr.nodup.length_le_card.trans_eq (by simp))
  have hspan' : Span c.prev c.next .bhead (l.reverse.map .fsbuf) .bhead := by
    rw [List.map_reverse]
    exact hr.span.reverse
  have hnone : l.find? (fun b => decide ((c.buf b).dev = dev ∧ (c.buf b).num = nblk)) = none :=
    List.find?_eq_none.2 fun b _ hb => hmiss b (of_decide_eq_true hb)
  have h₁ := scan_span (c := c)
    (p := fun b => decide ((c.buf b).dev = dev ∧ (c.buf b).num = nblk)) hr.span hlen
  have h₂ := scan_span (c := c) (p := fun b => decide (Evictable c b)) hspan' (by simpa using hlen)
  rw [hnone] at h₁
  rw [getblk, Act.bind_of_ok (show Act.get c = .ok (c, c) from rfl), Act.bind_of_ok h₁]
  refine (Act.bind_of_ok h₂).trans ?_
  cases l.reverse.find? fun b => decide (Evictable c b) with
  | none => rfl
  | some b => rfl

/-- Whatever has been done with the cache since `init_buffer`, a call of `getblk` for
a sector that is not in it takes a buffer that is neither busy nor dirty: one that was
never released or, if all of these were, the one whose last release is the oldest. It
panics only if every buffer is busy or dirty. -/
theorem getblk_evicts_oldest {c₀ : Cache} {es : List Op} (h : Run Use (initBuffer c₀) es c)
    (hmiss : ∀ b, ¬ ((c.buf b).dev = dev ∧ (c.buf b).num = nblk)) :
    (∃ b c', getblk dev nblk c = .ok (.buf b, c') ∧ Evictable c b ∧
      (b ∉ releases es ∨ ∀ b', Evictable c b' → b' ∈ releases es ∧
        (b' ≠ b → lastAt (releases es) b < lastAt (releases es) b'))) ∨
    (getblk dev nblk c = .error (.panic "getblk: no buffers available") ∧
      ∀ b, ¬ Evictable c b) := by
  obtain ⟨l, hr, hall, hrecent⟩ := ordered_run h (ordered_initBuffer c₀)
  rw [List.nil_append] at hrecent
  rw [getblk_miss hr hmiss]
  cases hf : l.reverse.find? fun b => decide (Evictable c b) with
  | none =>
      refine Or.inr ⟨rfl, fun b hb => ?_⟩
      exact List.find?_eq_none.1 hf b (List.mem_reverse.2 (hall b)) (decide_eq_true hb)
  | some b =>
      have hfree := List.find?_some hf
      refine Or.inl ⟨b, _, rfl, of_decide_eq_true hfree, ?_⟩
      by_cases hb : b ∈ releases es
      · refine Or.inr fun b' hb' => ?_
        have hle := hrecent.lastAt_le_of_find? hf (hall b') (decide_eq_true hb')
        have hpos : lastAt (releases es) b ≠ 0 := fun h0 => lastAt_eq_zero_iff.1 h0 hb
        have hmem : b' ∈ releases es := by
          by_contra hno
          rw [lastAt_eq_zero_iff.2 hno] at hle
          omega
        refine ⟨hmem, fun hne => Nat.lt_of_le_of_ne hle fun he => ?_⟩
        exact hne (eq_of_lastAt_eq hb he).symm
      · exact Or.inl hb

end

/-- The cache after `init_buffer`, with nothing on the disk. -/
def blankCache : Cache :=
  initBuffer ⟨fun _ => ⟨0, ⟨false, false, false⟩, 0, none, fun _ => 0⟩, fun _ => .bhead,
    fun _ => .bhead, none, [], fun _ _ => 0, 0⟩

/-- A buffer is taken and released. -/
theorem blankCache_used : ∃ c, Run Use blankCache [.fetch false 256 0 (.returned 0), .brelse 0] c ∧
    (∀ b, ¬ ((c.buf b).dev = 256 ∧ (c.buf b).num = 1)) ∧ Evictable c 1 := by
  obtain ⟨⟨d, c⟩, hx, hd⟩ := exists_ok_of_toOption (f := Prod.fst)
    (b := (Outcome.returned 0, true))
    (x := (do
      let o ← fetch false 256 0
      brelse 0
      Act.gets fun c => (o, decide ((∀ b, ¬ ((c.buf b).dev = 256 ∧ (c.buf b).num = 1)) ∧
        Evictable c 1)) : Act Cache (Outcome × Bool)) blankCache) (by decide +kernel)
  obtain ⟨o, c₁, hfetch, hx⟩ := Act.bind_eq_ok.1 hx
  obtain ⟨_, c₂, hrelse, hx⟩ := Act.bind_eq_ok.1 hx
  obtain ⟨rfl, rfl⟩ := Act.gets_eq_ok.1 hx
  obtain ⟨rfl, hfacts⟩ := Prod.mk.inj hd
  exact ⟨c₂, .cons (.fetch hfetch) (.single (.brelse hrelse)), of_decide_eq_true hfacts⟩

/-- The next sector goes to another buffer. -/
theorem blankCache_evicts : ∃ c b c', Run Use blankCache
    [.fetch false 256 0 (.returned 0), .brelse 0] c ∧ getblk 256 1 c = .ok (.buf b, c') ∧ b ≠ 0 := by
  obtain ⟨c, hrun, hmiss, hfree⟩ := blankCache_used
  rcases getblk_evicts_oldest hrun hmiss with ⟨b, c', hb, -, hold⟩ | ⟨-, hnone⟩
  · refine ⟨c, b, c', hrun, hb, ?_⟩
    rintro rfl
    rcases hold with hold | hold
    · exact hold (by decide)
    · exact absurd (hold 1 hfree).1 (by decide)
  · exact absurd hfree (hnone 1)

end Fs

end Chunix
