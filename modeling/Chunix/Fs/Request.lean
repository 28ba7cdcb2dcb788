import Chunix.Fs.Spec
import Chunix.Machine.Run

/-!
# The request queue of the disk

A call of `hd_rw` puts its buffer at the end of `hdqueue` and sleeps until the
request is served. The first request is started by the call itself, each later one
by the interrupt handler. The disk interrupts once for every command; sleepers may
be resumed at any time. A history of the requests, in the order of the calls, runs
beside the system, and says which command belongs to which buffer.
-/

namespace Chunix

namespace Fs

open Machine Linked

/-- The command that `hd_dorw` sends for a buffer. -/
def commandOf (bp : Buf) : Command :=
  ⟨bp.num % 268435456, if bp.flags.dirty then some bp.data else none⟩

/-- The driver with its callers: the call of `hd_rw` a task is in, by its buffer
and the number of its request, the requests so far, and how often the disk has
interrupted. -/
structure Driver (τ : Type) where
  cache : Cache
  call : τ → Option (BufId × Nat)
  requests : List (BufId × Command)
  interrupts : Nat

/-- What happens in one step. -/
inductive DriverEv (τ : Type)
  | hdRw (t : τ) (b : BufId)
  | wake (t : τ)
  | isr (input : Sector)
  | other

variable {τ : Type} [DecidableEq τ]

/-- The steps: a call of `hd_rw` for a buffer that no other call is about, up to
its `sleep_on`; a return from `sleep_on`, after which the loop of `hd_rw` looks at
the flags; an interrupt for a command that was sent; and whatever the holders of
buffers do to those that are in no call. -/
inductive DriverStep : Driver τ → DriverEv τ → Driver τ → Prop
  | hdRw {s : Driver τ} {t b c} (hidle : s.call t = none)
      (hfree : ∀ t' k, s.call t' ≠ some (b, k)) (h : hdRw b s.cache = .ok ((), c)) :
      DriverStep s (.hdRw t b)
        { s with
          cache := c
          call := if hdDone (c.buf b) then s.call
            else Function.update s.call t (some (b, s.requests.length))
          requests := s.requests ++ [(b, commandOf (s.cache.buf b))] }
  | wake {s : Driver τ} {t b k} (hcall : s.call t = some (b, k)) :
      DriverStep s (.wake t)
        { s with
          call := if hdDone (s.cache.buf b) then Function.update s.call t none else s.call }
  | isr {s : Driver τ} {input c} (hint : s.interrupts < s.cache.issued.length)
      (h : hdIsr input s.cache = .ok ((), c)) :
      DriverStep s (.isr input) { s with cache := c, interrupts := s.interrupts + 1 }
  | other {s : Driver τ} {c : Cache} (hqueue : c.hdqueue = s.cache.hdqueue)
      (hissued : c.issued = s.cache.issued)
      (hbuf : ∀ t b k, s.call t = some (b, k) → c.buf b = s.cache.buf b) :
      DriverStep s .other { s with cache := c }

/-- The links of the queue. -/
def hdLink (c : Cache) (b : BufId) : Option BufId := (c.buf b).hdnext

/-- What `hd_rw` does to a queue without its buffer. -/
structure Queued (b : BufId) (l : List BufId) (c c' : Cache) : Prop where
  waits : hdDone (c.buf b) = false
  chain : IsChain (hdLink c') c'.hdqueue (l ++ [b])
  buf : ∀ b', c'.buf b' = { c.buf b' with hdnext := (c'.buf b').hdnext }
  issued : c'.issued = c.issued ++ if l = [] then [commandOf (c.buf b)] else []

theorem hdDorw_eq_ok {b : BufId} {c c' : Cache} {u : Unit} :
    hdDorw b c = .ok (u, c') ↔ { c with issued := c.issued ++ [commandOf (c.buf b)] } = c' := by
  simp only [hdDorw, Act.bind_eq_ok, Act.gets_eq_ok, Act.modify_eq_ok]
  constructor
  · rintro ⟨_, _, ⟨rfl, rfl⟩, h⟩
    exact h
  · intro h
    exact ⟨_, _, ⟨rfl, rfl⟩, h⟩

theorem hdRw_queued {b : BufId} {l : List BufId} {c c' : Cache} {u : Unit}
    (hc : IsChain (hdLink c) c.hdqueue l) (hb : b ∉ l) (h : hdRw b c = .ok (u, c')) :
    Queued b l c c' := by
  simp only [hdRw, Act.bind_eq_ok, Act.gets_eq_ok, Act.get_eq_ok, Act.ite_eq_ok, updBuf_eq_ok,
    Act.halt_eq_ok, and_false, false_or] at h
  obtain ⟨_, _, ⟨rfl, rfl⟩, -, hdone, _, c₁, hc₁, _, _, ⟨rfl, rfl⟩, h⟩ := h
  have hwaits : hdDone (c.buf b) = false := by
    rw [hdDone]
    cases hv : (c.buf b).flags.valid <;> cases hd : (c.buf b).flags.dirty <;>
      simp_all
  have hbuf₁ : ∀ b', c₁.buf b' = { c.buf b' with hdnext := (c₁.buf b').hdnext } := by
    intro b'
    by_cases hbb : b' = b
    · subst hbb
      rw [← hc₁]
      simp
    · rw [← hc₁, setBuf_of_ne hbb]
  have hnext : (c₁.buf b).hdnext = none := by
    rw [← hc₁]
    simp
  have hqueue : c₁.hdqueue = c.hdqueue := by rw [← hc₁]; rfl
  have hissued : c₁.issued = c.issued := by rw [← hc₁]; rfl
  have hchain : IsChain (hdLink c₁) c₁.hdqueue l := by
    rw [hqueue]
    refine hc.congr fun a ha => ?_
    have hab : a ≠ b := fun he => hb (he ▸ ha)
    rw [hdLink, ← hc₁, setBuf_of_ne hab, hdLink]
  have hcmd : commandOf (c₁.buf b) = commandOf (c.buf b) := by
    rw [hbuf₁ b]
    rfl
  clear hc₁ hc hdone
  have hlen : l.length ≤ 16 := by
    simpa using hchain.nodup.length_le_card
  have hfollow : follow (fun b => (c₁.buf b).hdnext) 16 c₁.hdqueue = some l :=
    hchain.follow_eq hlen
  rw [hfollow] at h
  cases hl : l.getLast? with
  | none =>
      have hnil : l = [] := List.getLast?_eq_none_iff.1 hl
      subst hnil
      simp only [hl, Act.bind_eq_ok, Act.modify_eq_ok, Act.gets_eq_ok, Act.ite_eq_ok,
        hdDorw_eq_ok, Act.pure_eq_ok] at h
      obtain ⟨_, _, rfl, _, _, ⟨rfl, rfl⟩, ⟨-, rfl⟩ | ⟨hne, -⟩⟩ := h
      · refine ⟨hwaits, ⟨rfl, hnext⟩, hbuf₁, ?_⟩
        simp only [hissued, hcmd, if_true]
      · exact absurd rfl hne
  | some a =>
      have hnil : l ≠ [] := by
        rintro rfl
        simp at hl
      simp only [hl, Act.bind_eq_ok, updBuf_eq_ok, Act.gets_eq_ok, Act.ite_eq_ok,
        hdDorw_eq_ok, Act.pure_eq_ok] at h
      have hhead : c₁.hdqueue ≠ some b := by
        cases l with
        | nil => exact absurd rfl hnil
        | cons d l =>
            rw [hchain.1]
            simp only [ne_eq, Option.some.injEq]
            exact fun he => hb (he ▸ List.mem_cons_self)
      obtain ⟨_, _, rfl, _, _, ⟨rfl, rfl⟩, ⟨hq, -⟩ | ⟨-, -, rfl⟩⟩ := h
      · exact absurd hq hhead
      · have hlink : hdLink (c₁.setBuf a fun bp => { bp with hdnext := some b }) =
            Function.update (hdLink c₁) a (some b) := by
          funext x
          by_cases hx : x = a
          · subst hx
            simp [hdLink]
          · rw [Function.update_of_ne hx, hdLink, setBuf_of_ne hx, hdLink]
        refine ⟨hwaits, ?_, ?_, ?_⟩
        · rw [hlink]
          exact hchain.snoc hl hb hnext
        · intro b'
          by_cases hba : b' = a
          · subst hba
            rw [setBuf_self, hbuf₁ b']
          · rw [setBuf_of_ne hba, hbuf₁ b']
        · rw [if_neg hnil, List.append_nil]
          exact hissued

/-- What the interrupt handler does to a queue. -/
structure Popped (b : BufId) (l : List BufId) (c c' : Cache) : Prop where
  chain : IsChain (hdLink c') c'.hdqueue l
  other : ∀ b', b' ≠ b → c'.buf b' = c.buf b'
  done : hdDone (c'.buf b) = true
  issued : c'.issued = c.issued ++ l.head?.toList.map fun a => commandOf (c.buf a)

theorem hdIsr_popped {b : BufId} {l : List BufId} {c c' : Cache} {input : Sector} {u : Unit}
    (hc : IsChain (hdLink c) c.hdqueue (b :: l)) (h : hdIsr input c = .ok (u, c')) :
    Popped b l c c' := by
  obtain ⟨hq, hl⟩ := hc
  have hnd : b ∉ l := (List.nodup_cons.1 (@IsChain.nodup _ (hdLink c) _ _ ⟨rfl, hl⟩)).1
  obtain ⟨q, _, hq', h⟩ := Act.bind_eq_ok.1 h
  obtain ⟨rfl, rfl⟩ := Act.gets_eq_ok.1 hq'
  rw [hq] at h
  obtain ⟨bp, _, hb, h⟩ := Act.bind_eq_ok.1 h
  obtain ⟨rfl, rfl⟩ := Act.gets_eq_ok.1 hb
  obtain ⟨_, c₁, h₁, h⟩ := Act.bind_eq_ok.1 h
  -- From here on only the buffer `b` changes, up to the command for the next one.
  have hrest : ∀ {c₂ : Cache}, c₂.hdqueue = (c.buf b).hdnext → c₂.issued = c.issued →
      (∀ b', b' ≠ b → c₂.buf b' = c.buf b') →
        hdFinish b (c.buf b).hdnext c₂ = .ok (u, c') → Popped b l c c' := by
    intro c₂ hq₂ hi₂ hbuf₂ h
    unfold hdFinish at h
    obtain ⟨_, c₃, h₃, h⟩ := Act.bind_eq_ok.1 h
    rw [updBuf_eq_ok] at h₃
    have hother : ∀ b', b' ≠ b → c₃.buf b' = c.buf b' := by
      intro b' hb'
      rw [← h₃, setBuf_of_ne hb', hbuf₂ b' hb']
    have hdone : hdDone (c₃.buf b) = true := by
      rw [← h₃]
      simp [hdDone]
    have hchain : IsChain (hdLink c₃) (c.buf b).hdnext l := by
      refine hl.congr fun a ha => ?_
      rw [hdLink, hother a fun he => hnd (he ▸ ha), hdLink]
    have hq₃ : c₃.hdqueue = (c.buf b).hdnext := by
      rw [← h₃]
      exact hq₂
    have hi₃ : c₃.issued = c.issued := by
      rw [← h₃]
      exact hi₂
    cases l with
    | nil =>
        have hn : (c.buf b).hdnext = none := hchain
        rw [hn] at h hq₃
        obtain ⟨-, rfl⟩ := Act.pure_eq_ok.1 h
        exact ⟨hq₃, hother, hdone, by simp [hi₃]⟩
    | cons a l =>
        have hn : (c.buf b).hdnext = some a := hchain.1
        have hab : a ≠ b := fun he => hnd (he ▸ List.mem_cons_self)
        rw [hn] at h hq₃
        rw [hdDorw_eq_ok] at h
        subst h
        refine ⟨⟨hq₃, hchain.2⟩, hother, hdone, ?_⟩
        simp only [hi₃, hother a hab, List.head?_cons, Option.toList_some, List.map_cons,
          List.map_nil]
  rw [Act.modify_eq_ok] at h₁
  subst h₁
  by_cases hd : (c.buf b).flags.dirty = false
  · rw [if_pos hd] at h
    obtain ⟨_, c₂, h₂, h⟩ := Act.bind_eq_ok.1 h
    rw [updBuf_eq_ok] at h₂
    subst h₂
    refine hrest ?_ ?_ ?_ h
    · rfl
    · rfl
    · exact fun b' hb' => setBuf_of_ne hb'
  · rw [if_neg hd] at h
    refine hrest ?_ ?_ ?_ h
    · rfl
    · rfl
    · exact fun _ _ => rfl

/-- The invariant: the queue has the buffers of the requests that were not served,
one command was sent for each request up to the first of those, and a caller whose
request is not served still has the buffer it queued. -/
structure QueueInv (s : Driver τ) (l : List BufId) : Prop where
  chain : IsChain (hdLink s.cache) s.cache.hdqueue l
  served : s.interrupts ≤ s.requests.length
  queued : (s.requests.drop s.interrupts).map Prod.fst = l
  issued : s.cache.issued =
    (s.requests.take (s.interrupts + l.head?.toList.length)).map Prod.snd
  apart : ∀ t t' b k k', s.call t = some (b, k) → s.call t' = some (b, k') → t = t'
  caller : ∀ b ∈ l, ∃ t k, s.call t = some (b, k) ∧ s.interrupts ≤ k
  waiting : ∀ t b k, s.call t = some (b, k) → s.interrupts ≤ k →
    s.requests[k]? = some (b, commandOf (s.cache.buf b)) ∧ hdDone (s.cache.buf b) = false
  done : ∀ t b k, s.call t = some (b, k) → k < s.interrupts →
    (∃ cmd, s.requests[k]? = some (b, cmd)) ∧ hdDone (s.cache.buf b) = true

section

variable {s : Driver τ} {l : List BufId} {t : τ} {b : BufId} {k : Nat} {c : Cache}

omit [DecidableEq τ] in
/-- The place in the queue of a caller whose request is not served. -/
theorem QueueInv.place (h : QueueInv s l) (hcall : s.call t = some (b, k))
    (hk : s.interrupts ≤ k) : l[k - s.interrupts]? = some b := by
  rw [← h.queued, List.getElem?_map, List.getElem?_drop,
    show s.interrupts + (k - s.interrupts) = k by omega, (h.waiting t b k hcall hk).1]
  rfl

omit [DecidableEq τ] in
/-- A buffer is queued exactly while the request of its caller is not served. -/
theorem QueueInv.mem_iff (h : QueueInv s l) (hcall : s.call t = some (b, k)) :
    b ∈ l ↔ s.interrupts ≤ k := by
  constructor
  · intro hb
    obtain ⟨t', k', hcall', hk'⟩ := h.caller b hb
    cases h.apart t t' b k k' hcall hcall'
    cases hcall.symm.trans hcall'
    exact hk'
  · intro hk
    exact List.mem_of_getElem? (h.place hcall hk)

omit [DecidableEq τ] in
/-- The request of the first buffer in the queue is the next one to be served. -/
theorem QueueInv.head (h : QueueInv s (b :: l)) :
    ∃ t, s.call t = some (b, s.interrupts) ∧
      s.requests[s.interrupts]? = some (b, commandOf (s.cache.buf b)) := by
  obtain ⟨t, k, hcall, hk⟩ := h.caller b List.mem_cons_self
  have hplace := h.place hcall hk
  have h₀ : k - s.interrupts = 0 := by
    obtain ⟨hlt, he⟩ := List.getElem?_eq_some_iff.1 hplace
    exact h.chain.nodup.getElem_inj_iff.1
      (show (b :: l)[k - s.interrupts] = (b :: l)[0] from he)
  have hk' : k = s.interrupts := by omega
  subst hk'
  exact ⟨t, hcall, (h.waiting t b _ hcall le_rfl).1⟩

theorem hdDone_hdnext (bp : Buf) (n : Option BufId) :
    hdDone { bp with hdnext := n } = hdDone bp := rfl

theorem commandOf_hdnext (bp : Buf) (n : Option BufId) :
    commandOf { bp with hdnext := n } = commandOf bp := rfl

theorem QueueInv.hdRw (h : QueueInv s l) (hidle : s.call t = none)
    (hfree : ∀ t' k, s.call t' ≠ some (b, k)) (hrw : Fs.hdRw b s.cache = .ok ((), c)) :
    hdDone (c.buf b) = false ∧ QueueInv (τ := τ)
      ⟨c, Function.update s.call t (some (b, s.requests.length)),
        s.requests ++ [(b, commandOf (s.cache.buf b))], s.interrupts⟩ (l ++ [b]) := by
  have hb : b ∉ l := fun hm => by
    obtain ⟨t', k', hcall, -⟩ := h.caller b hm
    exact hfree t' k' hcall
  have hq := hdRw_queued h.chain hb hrw
  have hdone : ∀ b', hdDone (c.buf b') = hdDone (s.cache.buf b') := by
    intro b'
    rw [hq.buf b', hdDone_hdnext]
  have hcmd : ∀ b', commandOf (c.buf b') = commandOf (s.cache.buf b') := by
    intro b'
    rw [hq.buf b', commandOf_hdnext]
  have hlen := congrArg List.length h.queued
  rw [List.length_map, List.length_drop] at hlen
  have hserved := h.served
  -- The calls of the other tasks are as before.
  have hother : ∀ {t' b' k'}, Function.update s.call t (some (b, s.requests.length)) t' =
      some (b', k') → (t' = t ∧ b' = b ∧ k' = s.requests.length) ∨
        (t' ≠ t ∧ s.call t' = some (b', k')) := by
    intro t' b' k' hcall
    by_cases ht : t' = t
    · subst ht
      rw [Function.update_self] at hcall
      cases hcall
      exact Or.inl ⟨rfl, rfl, rfl⟩
    · rw [Function.update_of_ne ht] at hcall
      exact Or.inr ⟨ht, hcall⟩
  have hold : ∀ {k' : Nat} {x}, s.requests[k']? = some x →
      (s.requests ++ [(b, commandOf (s.cache.buf b))])[k']? = some x := by
    intro k' x hx
    rw [List.getElem?_append_left (List.getElem?_eq_some_iff.1 hx).1, hx]
  refine ⟨by rw [hdone, hq.waits], hq.chain, ?_, ?_, ?_, ?_, ?_, ?_, ?_⟩
  · simp only [List.length_append, List.length_singleton]
    omega
  · rw [List.drop_append_of_le_length hserved, List.map_append, h.queued]
    rfl
  · simp only
    rw [hq.issued, h.issued]
    cases l with
    | nil =>
        simp only [List.length_nil] at hlen
        have hall : s.interrupts = s.requests.length := by omega
        simp [hall]
    | cons a l =>
        simp only [List.length_cons] at hlen
        rw [if_neg (by simp), List.append_nil, List.cons_append, List.head?_cons, List.head?_cons,
          List.take_append_of_le_length]
        simp only [Option.toList_some, List.length_singleton]
        omega
  · intro t₁ t₂ b' k₁ k₂ h₁ h₂
    rcases hother h₁ with ⟨rfl, rfl, -⟩ | ⟨-, h₁'⟩
    · rcases hother h₂ with ⟨rfl, -, -⟩ | ⟨-, h₂'⟩
      · rfl
      · exact absurd h₂' (hfree _ _)
    · rcases hother h₂ with ⟨-, rfl, -⟩ | ⟨-, h₂'⟩
      · exact absurd h₁' (hfree _ _)
      · exact h.apart _ _ _ _ _ h₁' h₂'
  · intro b' hb'
    rcases List.mem_append.1 hb' with hm | hm
    · obtain ⟨t', k', hcall, hk⟩ := h.caller b' hm
      have ht : t' ≠ t := by
        rintro rfl
        rw [hidle] at hcall
        cases hcall
      exact ⟨t', k', by simp only [Function.update_of_ne ht, hcall], hk⟩
    · rw [List.mem_singleton.1 hm]
      exact ⟨t, _, Function.update_self _ _ _, hserved⟩
  · intro t' b' k' hcall hk
    simp only [hdone, hcmd]
    rcases hother hcall with ⟨rfl, rfl, rfl⟩ | ⟨-, hcall'⟩
    · exact ⟨by simp, hq.waits⟩
    · obtain ⟨hreq, hd⟩ := h.waiting t' b' k' hcall' hk
      exact ⟨hold hreq, hd⟩
  · intro t' b' k' hcall hk
    simp only [hdone]
    rcases hother hcall with ⟨rfl, rfl, rfl⟩ | ⟨-, hcall'⟩
    · exact absurd hk (by simp only; omega)
    · obtain ⟨⟨cmd, hreq⟩, hd⟩ := h.done t' b' k' hcall' hk
      exact ⟨⟨cmd, hold hreq⟩, hd⟩

theorem QueueInv.wake (h : QueueInv s l) (hcall : s.call t = some (b, k))
    (hdone : hdDone (s.cache.buf b) = true) :
    QueueInv { s with call := Function.update s.call t none } l := by
  have hother : ∀ {t' b' k'}, Function.update s.call t none t' = some (b', k') →
      s.call t' = some (b', k') := by
    intro t' b' k' hc
    by_cases ht : t' = t
    · subst ht
      rw [Function.update_self] at hc
      cases hc
    · rwa [Function.update_of_ne ht] at hc
  refine ⟨h.chain, h.served, h.queued, h.issued, ?_, ?_, ?_, ?_⟩
  · intro t₁ t₂ b' k₁ k₂ h₁ h₂
    exact h.apart _ _ _ _ _ (hother h₁) (hother h₂)
  · intro b' hb'
    obtain ⟨t', k', hcall', hk⟩ := h.caller b' hb'
    have ht : t' ≠ t := by
      rintro rfl
      cases hcall.symm.trans hcall'
      rw [(h.waiting _ _ _ hcall hk).2] at hdone
      cases hdone
    exact ⟨t', k', by simp only [Function.update_of_ne ht, hcall'], hk⟩
  · exact fun t' b' k' hc hk => h.waiting t' b' k' (hother hc) hk
  · exact fun t' b' k' hc hk => h.done t' b' k' (hother hc) hk

omit [DecidableEq τ] in
theorem QueueInv.isr {input : Sector} (h : QueueInv s (b :: l))
    (hisr : hdIsr input s.cache = .ok ((), c)) :
    QueueInv { s with cache := c, interrupts := s.interrupts + 1 } l := by
  have hp := hdIsr_popped h.chain hisr
  have hnd := h.chain.nodup
  obtain ⟨hbl, hndl⟩ := List.nodup_cons.1 hnd
  obtain ⟨t₀, hcall₀, hreq₀⟩ := h.head
  have hlt := (List.getElem?_eq_some_iff.1 hreq₀).1
  have hqueued : (s.requests.drop (s.interrupts + 1)).map Prod.fst = l := by
    have := congrArg List.tail h.queued
    rwa [← List.map_tail, List.tail_drop] at this
  -- A caller other than the one that is served waits for another buffer.
  have hne : ∀ {t' b' k'}, s.call t' = some (b', k') → k' ≠ s.interrupts → b' ≠ b := by
    rintro t' b' k' hcall hk rfl
    cases h.apart _ _ _ _ _ hcall hcall₀
    cases hcall.symm.trans hcall₀
    exact hk rfl
  refine ⟨hp.chain, hlt, hqueued, ?_, h.apart, ?_, ?_, ?_⟩
  · simp only
    rw [hp.issued, h.issued, List.head?_cons, Option.toList_some, List.length_singleton]
    cases l with
    | nil => simp
    | cons a l =>
        obtain ⟨t', k', hcall', hk'⟩ := h.caller a (by simp)
        have hplace := h.place hcall' hk'
        obtain ⟨hi, he⟩ := List.getElem?_eq_some_iff.1 hplace
        have h₁ : k' - s.interrupts = 1 := hnd.getElem_inj_iff.1
          (show (b :: a :: l)[k' - s.interrupts] = (b :: a :: l)[1] from he)
        have hk₁ : k' = s.interrupts + 1 := by omega
        have hreq := (h.waiting t' a k' hcall' hk').1
        rw [hk₁] at hreq
        rw [List.head?_cons, Option.toList_some, List.length_singleton,
          List.take_add_one (i := s.interrupts + 1), hreq]
        simp
  · intro b' hb'
    obtain ⟨t', k', hcall, hk⟩ := h.caller b' (List.mem_cons_of_mem _ hb')
    refine ⟨t', k', hcall, Nat.lt_of_le_of_ne hk fun he => ?_⟩
    subst he
    cases hreq₀.symm.trans (h.waiting _ _ _ hcall hk).1
    exact hbl hb'
  · intro t' b' k' hcall hk
    have hk' : s.interrupts + 1 ≤ k' := hk
    have hb' := hne hcall (by omega)
    simp only [hp.other b' hb']
    exact h.waiting t' b' k' hcall (by omega)
  · intro t' b' k' hcall hk
    have hk' : k' < s.interrupts + 1 := hk
    by_cases he : k' = s.interrupts
    · subst he
      obtain ⟨hreq, -⟩ := h.waiting t' b' _ hcall le_rfl
      cases hreq₀.symm.trans hreq
      exact ⟨⟨_, hreq⟩, hp.done⟩
    · have hb' := hne hcall he
      simp only [hp.other b' hb']
      exact h.done t' b' k' hcall (by omega)

omit [DecidableEq τ] in
theorem QueueInv.other (h : QueueInv s l) (hqueue : c.hdqueue = s.cache.hdqueue)
    (hissued : c.issued = s.cache.issued)
    (hbuf : ∀ t b k, s.call t = some (b, k) → c.buf b = s.cache.buf b) :
    QueueInv { s with cache := c } l := by
  refine ⟨?_, h.served, h.queued, hissued.trans h.issued, h.apart, h.caller, ?_, ?_⟩
  · simp only [hqueue]
    refine h.chain.congr fun b hb => ?_
    obtain ⟨t, k, hcall, -⟩ := h.caller b hb
    rw [hdLink, hbuf t b k hcall, hdLink]
  · intro t b k hcall hk
    simp only [hbuf t b k hcall]
    exact h.waiting t b k hcall hk
  · intro t b k hcall hk
    simp only [hbuf t b k hcall]
    exact h.done t b k hcall hk

omit [DecidableEq τ] in
/-- There is a command to interrupt for only while the queue is not empty. -/
theorem QueueInv.ne_nil (h : QueueInv s l) (hint : s.interrupts < s.cache.issued.length) :
    l ≠ [] := by
  rintro rfl
  rw [h.issued, List.length_map, List.length_take] at hint
  simp only [List.head?_nil, Option.toList_none, List.length_nil] at hint
  omega

/-- One step keeps the invariant. -/
theorem queueInv_step {e : DriverEv τ} {s' : Driver τ} (h : ∃ l, QueueInv s l)
    (hs : DriverStep s e s') : ∃ l, QueueInv s' l := by
  obtain ⟨l, h⟩ := h
  cases hs with
  | @hdRw t b c hidle hfree hrw =>
      obtain ⟨hdone, hi⟩ := h.hdRw hidle hfree hrw
      exact ⟨l ++ [b], by simpa only [hdone, Bool.false_eq_true, if_false] using hi⟩
  | @wake t b k hcall =>
      by_cases hd : hdDone (s.cache.buf b) = true
      · exact ⟨l, by simpa [hd] using h.wake hcall hd⟩
      · exact ⟨l, by simpa [hd] using h⟩
  | isr hint hisr =>
      cases l with
      | nil => exact absurd rfl (h.ne_nil hint)
      | cons b l => exact ⟨l, h.isr hisr⟩
  | other hqueue hissued hbuf => exact ⟨l, h.other hqueue hissued hbuf⟩

end

/-- The driver at boot: nothing is queued, nothing was sent. -/
structure DriverStart (s : Driver τ) : Prop where
  queue : s.cache.hdqueue = none
  issued : s.cache.issued = []
  call : ∀ t, s.call t = none
  requests : s.requests = []
  interrupts : s.interrupts = 0

omit [DecidableEq τ] in
theorem DriverStart.inv {s : Driver τ} (h : DriverStart s) : QueueInv s [] := by
  refine ⟨h.queue, by simp [h.interrupts], by simp [h.requests], by simp [h.issued, h.requests],
    ?_, by simp, ?_, ?_⟩
  · intro t t' b k k' hcall
    simp [h.call] at hcall
  · intro t b k hcall
    simp [h.call] at hcall
  · intro t b k hcall
    simp [h.call] at hcall

/-- The protocol in one state. The queue ends and holds no buffer twice; the
commands sent are those of the requests, in their order, and at most one of them
has not been answered: that of the first buffer in the queue. -/
structure Protocol (s : Driver τ) : Prop where
  queue : ∃ l, IsChain (hdLink s.cache) s.cache.hdqueue l ∧ l.Nodup ∧
    l = (s.requests.drop s.interrupts).map Prod.fst
  order : s.cache.issued <+: s.requests.map Prod.snd
  outstanding : s.interrupts ≤ s.cache.issued.length ∧
    s.cache.issued.length ≤ s.interrupts + 1 ∧
    (s.cache.issued.length = s.interrupts + 1 ↔ s.cache.hdqueue ≠ none)
  head : ∀ b, s.cache.hdqueue = some b → ∃ cmd, s.requests[s.interrupts]? = some (b, cmd) ∧
    s.cache.issued[s.interrupts]? = some cmd

omit [DecidableEq τ] in
theorem QueueInv.protocol {s : Driver τ} {l : List BufId} (h : QueueInv s l) : Protocol s := by
  have hserved := h.served
  have hlen := congrArg List.length h.issued
  rw [List.length_map, List.length_take] at hlen
  have hdrop := congrArg List.length h.queued
  rw [List.length_map, List.length_drop] at hdrop
  refine ⟨⟨l, h.chain, h.chain.nodup, h.queued.symm⟩, ?_, ?_, ?_⟩
  · rw [h.issued]
    exact (List.take_prefix _ _).map _
  · cases l with
    | nil =>
        have hq : s.cache.hdqueue = none := h.chain
        simp only [List.head?_nil, Option.toList_none, List.length_nil] at hlen
        exact ⟨by omega, by omega, by simp only [hq, ne_eq, not_true_eq_false, iff_false]; omega⟩
    | cons b l =>
        have hq : s.cache.hdqueue = some b := h.chain.1
        simp only [List.head?_cons, Option.toList_some, List.length_cons,
          List.length_nil] at hlen hdrop
        refine ⟨by omega, by omega, ?_⟩
        simp only [hq, ne_eq, reduceCtorEq, not_false_eq_true, iff_true]
        omega
  · intro b hb
    cases l with
    | nil =>
        have hq : s.cache.hdqueue = none := h.chain
        rw [hq] at hb
        cases hb
    | cons b' l =>
        cases hb.symm.trans h.chain.1
        obtain ⟨t, -, hreq⟩ := h.head
        refine ⟨_, hreq, ?_⟩
        rw [h.issued, List.getElem?_map, List.getElem?_take, if_pos (by simp), hreq]
        rfl

/-- In every run the queue keeps to the protocol, and a call of `hd_rw` returns
only when the disk has answered the command for its own buffer, with the buffer
valid and not dirty. -/
theorem hdqueue_protocol {s₀ s : Driver τ} {es : List (DriverEv τ)} (h₀ : DriverStart s₀)
    (hr : Run DriverStep s₀ es s) :
    Protocol s ∧
    (∀ t b s', DriverStep s (.hdRw t b) s' →
      s'.call t = some (b, s.requests.length) ∧
        s'.requests = s.requests ++ [(b, commandOf (s.cache.buf b))]) ∧
    ∀ e s' t b k, DriverStep s e s' → s.call t = some (b, k) → s'.call t ≠ some (b, k) →
      s'.call t = none ∧ k < s.interrupts ∧
        (∃ cmd, s.requests[k]? = some (b, cmd) ∧ s.cache.issued[k]? = some cmd) ∧
        (s'.cache.buf b).flags.valid = true ∧ (s'.cache.buf b).flags.dirty = false := by
  obtain ⟨l, h⟩ := hr.invariant (I := fun s => ∃ l, QueueInv s l)
    (fun _ _ _ _ h hs => queueInv_step h hs) ⟨[], h₀.inv⟩
  refine ⟨h.protocol, ?_, ?_⟩
  · intro t b s' hs
    cases hs with
    | hdRw hidle hfree hrw =>
        obtain ⟨hdone, -⟩ := h.hdRw hidle hfree hrw
        simp [hdone]
  · intro e s' t b k hs hcall hend
    cases hs with
    | @hdRw t' b' c hidle hfree hrw =>
        obtain ⟨hdone, -⟩ := h.hdRw hidle hfree hrw
        have ht : t ≠ t' := by
          rintro rfl
          rw [hidle] at hcall
          cases hcall
        simp only [hdone, Bool.false_eq_true, if_false, Function.update_of_ne ht] at hend
        exact absurd hcall hend
    | @wake t' b' k' hcall' =>
        by_cases hd : hdDone (s.cache.buf b') = true
        · simp only [hd, if_true] at hend ⊢
          by_cases ht : t = t'
          · subst ht
            cases hcall.symm.trans hcall'
            have hk : k < s.interrupts := by
              by_contra hk
              rw [(h.waiting t b k hcall (by omega)).2] at hd
              cases hd
            obtain ⟨⟨cmd, hreq⟩, -⟩ := h.done t b k hcall hk
            refine ⟨Function.update_self _ _ _, hk, ⟨cmd, hreq, ?_⟩, ?_⟩
            · rw [h.issued, List.getElem?_map, List.getElem?_take, if_pos (by omega), hreq]
              rfl
            · simpa [hdDone] using hd
          · rw [Function.update_of_ne ht] at hend
            exact absurd hcall hend
        · simp only [hd] at hend
          exact absurd hcall hend
    | isr _ _ => exact absurd hcall hend
    | other _ _ _ => exact absurd hcall hend

/-- Two tasks with a busy buffer each, for the sectors 0 and 1 of the hard
disk. -/
def pair : Driver Bool where
  cache := ⟨fun b => ⟨768, ⟨true, false, false⟩, b, none, fun _ => 0⟩,
    fun _ => .bhead, fun _ => .bhead, none, [], fun _ _ => 0, 0⟩
  call := fun _ => none
  requests := []
  interrupts := 0

theorem pair_start : DriverStart pair := ⟨rfl, rfl, fun _ => rfl, rfl, rfl⟩

/-- Both tasks ask for their sectors, and the disk answers the first of them. -/
theorem pair_protocol :
    ∃ s, Run DriverStep pair [.hdRw false 0, .hdRw true 1, .isr fun _ => 7] s ∧ Protocol s := by
  obtain ⟨s, hr⟩ : ∃ s, Run DriverStep pair
      [.hdRw false 0, .hdRw true 1, .isr fun _ => 7] s := by
    refine ⟨_, .cons (.hdRw rfl ?_ rfl) (.cons (.hdRw rfl ?_ rfl) (.cons (.isr ?_ rfl) (.nil _)))⟩
    · intro t k h
      cases h
    · intro t k h
      cases t <;> cases h
    · decide
  exact ⟨s, hr, (hdqueue_protocol pair_start hr).1⟩

end Fs

end Chunix
