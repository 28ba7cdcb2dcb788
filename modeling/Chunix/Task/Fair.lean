import Chunix.Task.List

/-!
# Every runnable task gets its turn

`sched_yield` looks for the next task behind the caller, goes on at the head of the list and comes
to the caller last. A task that is switched to goes on in user mode, so each scan starts behind
the task that was chosen before. `Ahead` is the part of the list that a scan has still to look at.
A runnable task in it comes one place nearer with every switch to another task, and a `fork` can
only put one new task before it. So the number of switches that it waits for is bounded.
-/

namespace Chunix

namespace Sched

open Machine Linked Chunix.Task Kernel

/-- The tasks that the scan of `t` at the point `c` has still to look at, with `t` at the end. The
list of the tasks is `b ++ t :: a`. -/
inductive Ahead (b a : List Slot) (t : Slot) : Cont → List Slot → Prop
  | out {c} (hx : c.executes) : Ahead b a t c (a ++ b ++ [t])
  | loop1 {x r w} (ha : a = x ++ r) : Ahead b a t (.loop1 r.head? w) (r ++ b ++ [t])
  | step1 {x tp r w} (ha : a = x ++ tp :: r) : Ahead b a t (.step1 tp w) (r ++ b ++ [t])
  | loop2 {x r w} (hb : b = x ++ r) : Ahead b a t (.loop2 (r ++ [t]).head? w) (r ++ [t])
  | step2 {x tp r w} (hb : b = x ++ tp :: r) : Ahead b a t (.step2 tp w) (r ++ [t])
  | last {w} : Ahead b a t (.last w) [t]

/-- How far a scan is between two tasks. -/
def Cont.rank : Cont → Nat
  | .step1 _ _ => 4
  | .loop1 _ _ => 3
  | .step2 _ _ => 2
  | .loop2 _ _ => 1
  | _ => 0

section

variable {k : Kernel} {t v : Slot} {c c' : Cont} {b a r : List Slot}

/-- Outside the scheduler the whole list is ahead. -/
theorem Ahead.of_executes {c : Cont} (h : Ahead b a t c r) (hx : c.executes) :
    r = a ++ b ++ [t] := by
  cases h with
  | out => rfl
  | _ => exact hx.elim

/-- The scan goes on, or passes by a task that is not runnable. -/
theorem Ahead.scan (hchain : IsChain k.next k.rootp (b ++ t :: a)) (h : Ahead b a t c r)
    (ha : advance k t c = some (.goto c')) :
    ∃ r', Ahead b a t c' r' ∧
      ((r' = r ∧ c'.rank < c.rank) ∨ ∃ tp, r = tp :: r' ∧ k.state tp ≠ .runnable) := by
  cases h with
  | out hx =>
      cases c with
      | run | wait | exitFail => cases ha
      | _ => exact hx.elim
  | @loop1 x r w hxr =>
      cases r with
      | nil =>
          cases ha
          have hroot : k.rootp = (b ++ [t]).head? := by
            rw [hchain.head_eq]
            cases b <;> rfl
          refine ⟨_, ?_, Or.inl ⟨rfl, by simp [Cont.rank]⟩⟩
          rw [hroot]
          exact .loop2 (x := []) rfl
      | cons tp r =>
          simp only [List.head?_cons, advance] at ha
          split at ha
          · cases ha
          · cases ha
            exact ⟨_, .step1 hxr, Or.inr ⟨tp, rfl, ‹_›⟩⟩
  | @step1 x tp r w hxr =>
      cases ha
      have hnext : k.next tp = r.head? := by
        refine IsChain.next_eq (p := k.rootp) (b := b ++ t :: x) ?_
        rwa [hxr, ← List.cons_append, ← List.append_assoc] at hchain
      refine ⟨_, ?_, Or.inl ⟨rfl, by simp [Cont.rank]⟩⟩
      rw [hnext]
      exact .loop1 (x := x ++ [tp]) (by rw [hxr, List.append_assoc]; rfl)
  | @loop2 x r w hxr =>
      cases r with
      | nil =>
          simp only [List.nil_append, List.head?_cons, advance, if_true] at ha
          cases ha
          exact ⟨_, .last, Or.inl ⟨rfl, by simp [Cont.rank]⟩⟩
      | cons tp r =>
          have htp : tp ≠ t := by
            have hnd := hchain.nodup
            rw [hxr] at hnd
            rintro rfl
            simp [List.nodup_append] at hnd
          simp only [List.cons_append, List.head?_cons, advance, if_neg htp] at ha
          split at ha
          · cases ha
          · cases ha
            exact ⟨_, .step2 hxr, Or.inr ⟨tp, rfl, ‹_›⟩⟩
  | @step2 x tp r w hxr =>
      cases ha
      have hnext : k.next tp = (r ++ [t]).head? := by
        rw [hxr, List.append_assoc] at hchain
        rw [IsChain.next_eq (b := x) (a := r ++ t :: a) hchain]
        cases r <;> rfl
      refine ⟨_, ?_, Or.inl ⟨rfl, by simp [Cont.rank]⟩⟩
      rw [hnext]
      exact .loop2 (x := x ++ [tp]) (by rw [hxr, List.append_assoc]; rfl)
  | last => cases ha

/-- A call of `task_run`: on the task itself when nothing else is ahead, or on the next task. What
is ahead of a scan behind that task begins with the rest of what was ahead of this one. -/
theorem Ahead.taskRun (hchain : IsChain k.next k.rootp (b ++ t :: a)) (h : Ahead b a t c r)
    (ha : advance k t c = some (.taskRun v c')) :
    (v = t ∧ r = [t]) ∨ (v ≠ t ∧ ∃ b' a' r' y, b ++ t :: a = b' ++ v :: a' ∧ r = v :: r' ∧
      a' ++ b' ++ [v] = r' ++ y) := by
  have hnd := hchain.nodup
  cases h with
  | out hx =>
      cases c with
      | run | wait | exitFail => cases ha
      | _ => exact hx.elim
  | @loop1 x r w hxr =>
      cases r with
      | nil => cases ha
      | cons tp r =>
          simp only [List.head?_cons, advance] at ha
          split at ha
          · cases ha
            refine Or.inr ⟨?_, b ++ t :: x, r, r ++ b ++ [t], x ++ [v], by simp [hxr], by simp,
              by simp⟩
            rintro rfl
            rw [hxr] at hnd
            simp [List.nodup_append] at hnd
          · cases ha
  | step1 => cases ha
  | @loop2 x r w hxr =>
      cases r with
      | nil =>
          simp only [List.nil_append, List.head?_cons, advance, if_true] at ha
          cases ha
      | cons tp r =>
          simp only [List.cons_append, List.head?_cons, advance] at ha
          split at ha
          · cases ha
          · split at ha
            · cases ha
              exact Or.inr ⟨‹_›, x, r ++ t :: a, r ++ [t], a ++ x ++ [v], by simp [hxr], by simp,
                by simp⟩
            · cases ha
  | step2 => cases ha
  | last =>
      cases ha
      exact Or.inl ⟨rfl, rfl⟩

end

/-- The task `u` is to be looked at, with at most `n` tasks before it. -/
structure Waiting (u : Slot) (s : Sys) (n : Nat) (b a r : List Slot) (t : Slot) : Prop where
  chain : IsChain s.k.next s.k.rootp (b ++ t :: a)
  current : s.k.current = some t
  ahead : Ahead b a t (s.cont t) r
  mem : u ∈ r
  le : r.idxOf u ≤ n

/-- The task that an event lets execute. -/
def Ev.picks : Ev → Option Slot
  | .switch _ u => some u
  | .back t => some t
  | _ => none

def Ev.isSwitch : Ev → Bool
  | .switch _ _ => true
  | _ => false

def Ev.isFork : Ev → Bool
  | .fork _ (some _) => true
  | _ => false

/-- A step in which the runnable task `u` is not chosen. A task that is switched to goes on in
user mode, and no slot is linked twice. -/
structure Passes (u : Slot) (s : Sys) (e : Ev) (s' : Sys) : Prop where
  step : Step s e s'
  fresh : TakesFresh s.k e
  lands : ∀ t v, e = .switch t v → s'.cont v = .run
  runnable : s.k.state u = .runnable
  other : e.picks ≠ some u

section

variable {u t : Slot} {s s' : Sys} {n : Nat} {b a r : List Slot} {e : Ev}

/-- The scan goes on. -/
theorem Waiting.scan {c : Cont} (h : Waiting u s n b a r t) (hr : s.k.state u = .runnable)
    (ha : advance s.k t (s.cont t) = some (.goto c)) :
    ∃ r', Waiting u ⟨s.k, Function.update s.cont t c⟩ n b a r' t := by
  obtain ⟨r', h', hcase⟩ := h.ahead.scan h.chain ha
  obtain ⟨hmem, hle⟩ : u ∈ r' ∧ r'.idxOf u ≤ n := by
    rcases hcase with ⟨rfl, -⟩ | ⟨tp, rfl, htp⟩
    · exact ⟨h.mem, h.le⟩
    · have hne : tp ≠ u := fun he => htp (he ▸ hr)
      have hle := h.le
      rw [List.idxOf_cons_ne _ hne] at hle
      exact ⟨List.mem_of_ne_of_mem hne.symm h.mem, by omega⟩
  refine ⟨r', h.chain, h.current, ?_, hmem, hle⟩
  change Ahead b a t (Function.update s.cont t c t) r'
  rwa [Function.update_self]

/-- A switch to another task brings `u` nearer. -/
theorem Waiting.switch {v : Slot} {c : Cont} {k' : Kernel} {cont' : Slot → Cont}
    (h : Waiting u s n b a r t) (hvu : v ≠ u) (hvt : v ≠ t)
    (ha : advance s.k t (s.cont t) = some (.taskRun v c)) (hs : Switched t v s.k k')
    (hcont : cont' v = .run) :
    ∃ m b' a' r', m + 1 ≤ n ∧ Waiting u ⟨k', cont'⟩ m b' a' r' v := by
  obtain ⟨b', a', r', y, hl, rfl, hy⟩ := ((h.ahead.taskRun h.chain ha).resolve_left
    fun he => hvt he.1).2
  have hle := h.le
  rw [List.idxOf_cons_ne _ hvu] at hle
  have hmem : u ∈ r' := List.mem_of_ne_of_mem hvu.symm h.mem
  refine ⟨r'.idxOf u, b', a', a' ++ b' ++ [v], by omega, ?_, hs.current, ?_, ?_, ?_⟩
  · rw [hs.next, hs.rootp, ← hl]
    exact h.chain
  · rw [show (⟨k', cont'⟩ : Sys).cont v = .run from hcont]
    exact .out trivial
  · rw [hy]
    exact List.mem_append_left _ hmem
  · exact Nat.le_of_eq (by rw [hy, List.idxOf_append_of_mem hmem])

/-- What a task does outside the scheduler. -/
theorem Waiting.stays (h : Waiting u s n b a r t) (hx : (s.cont t).executes)
    (hx' : (s'.cont t).executes) (hnext : s'.k.next = s.k.next) (hroot : s'.k.rootp = s.k.rootp)
    (hcur : s'.k.current = s.k.current) : Waiting u s' n b a r t := by
  refine ⟨by rw [hnext, hroot]; exact h.chain, hcur.trans h.current, ?_, h.mem, h.le⟩
  rw [h.ahead.of_executes hx]
  exact .out hx'

/-- A call of `sched_yield`. -/
theorem Waiting.enters {k' : Kernel} {w : After} (h : Waiting u s n b a r t)
    (hx : (s.cont t).executes) (he : enter s k' t w = some s') (hnext : k'.next = s.k.next)
    (hroot : k'.rootp = s.k.rootp) (hcur : k'.current = s.k.current) :
    Waiting u s' n b a r t := by
  rw [enter_eq_some he]
  refine ⟨by rw [hnext, hroot]; exact h.chain, hcur.trans h.current, ?_, h.mem, h.le⟩
  change Ahead b a t (Function.update s.cont t (.loop1 (k'.next t) w) t) r
  rw [Function.update_self, h.ahead.of_executes hx, hnext, h.chain.next_eq]
  exact .loop1 (x := []) rfl

/-- A new task at the head of the list. -/
theorem Waiting.fork {v : Slot} {k' : Kernel} {cont' : Slot → Cont} (h : Waiting u s n b a r t)
    (hx : (s.cont t).executes) (hp : Pushed v s.k k') (hfresh : ¬ OnList s.k v)
    (hcont : cont' t = s.cont t) :
    Waiting u ⟨k', cont'⟩ (n + 1) (v :: b) a (a ++ (v :: b) ++ [t]) t := by
  obtain ⟨hchain, hcur, hahead, hmem, hle⟩ := h
  have hr := hahead.of_executes hx
  have hv : v ∉ b ++ t :: a := fun hm => hfresh ⟨_, hchain, hm⟩
  rw [hr] at hmem hle
  refine ⟨?_, hp.current.trans hcur, ?_, ?_, ?_⟩
  · rw [hp.next, hp.rootp]
    exact hchain.push hv
  · rw [show (⟨k', cont'⟩ : Sys).cont t = s.cont t from hcont]
    exact .out hx
  · simp only [List.mem_append, List.mem_cons] at hmem ⊢
    tauto
  · by_cases hua : u ∈ a
    · rw [List.append_assoc, List.idxOf_append_of_mem hua] at hle ⊢
      omega
    · rw [List.append_assoc, List.idxOf_append_of_notMem hua] at hle ⊢
      have hcons : (v :: (b ++ [t])).idxOf u ≤ (b ++ [t]).idxOf u + 1 := by
        rw [List.idxOf_cons]
        cases v == u
        · exact Nat.le_refl _
        · exact Nat.zero_le _
      rw [List.cons_append]
      omega

/-- The scan comes to its own task only when no other task is ahead. -/
theorem Waiting.eq_of_self {c : Cont} (h : Waiting u s n b a r t)
    (ha : advance s.k t (s.cont t) = some (.taskRun t c)) : u = t := by
  rcases h.ahead.taskRun h.chain ha with ⟨-, hr⟩ | ⟨hne, -⟩
  · have hmem := h.mem
    rw [hr] at hmem
    exact List.mem_singleton.1 hmem
  · exact absurd rfl hne

/-- One step in which `u` is not chosen. -/
theorem Waiting.step (h : Waiting u s n b a r t) (hp : Passes u s e s') :
    ∃ m b' a' r' t', Waiting u s' m b' a' r' t' ∧
      m + (if e.isSwitch then 1 else 0) ≤ n + (if e.isFork then 1 else 0) := by
  obtain ⟨hstep, hfresh, hlands, hr, hother⟩ := hp
  -- The steps that leave the number of tasks ahead as it is.
  have same : ∀ {r'}, e.isSwitch = false → Waiting u s' n b a r' t →
      ∃ m b' a' r' t', Waiting u s' m b' a' r' t' ∧
        m + (if e.isSwitch then 1 else 0) ≤ n + (if e.isFork then 1 else 0) := by
    intro r' he h'
    refine ⟨n, b, a, r', t, h', ?_⟩
    rw [he]
    exact Nat.le_add_right n _
  cases hstep with
  | @forkFail t' k' hc hrun hf =>
      cases hc.symm.trans h.current
      have hx : (s.cont t).executes := by rw [hrun]; trivial
      rcases fork_cases hf with ⟨-, hs⟩ | ⟨hn, -⟩
      · exact same rfl (h.stays hx hx hs.next hs.rootp hs.current)
      · exact absurd hn (by decide)
  | @fork t' v m k' hc hrun hm hv hf =>
      cases hc.symm.trans h.current
      obtain ⟨-, v', hforked⟩ := (fork_cases hf).resolve_left fun hn => by
        have := hn.1
        omega
      cases hforked.slot.symm.trans hv
      have hvt : t ≠ v := by
        rintro rfl
        exact hfresh ⟨_, h.chain, by simp⟩
      have hcont : Function.update s.cont v .run t = s.cont t := Function.update_of_ne hvt _ _
      have h' := h.fork (by rw [hrun]; trivial) hforked.toPushed hfresh hcont
      exact ⟨_, _, _, _, _, h', Nat.le_refl _⟩
  | @exit t' stale cs k' _ hc hrun hx he =>
      cases hc.symm.trans h.current
      obtain ⟨c, hc', hexit⟩ := exit_cases hx
      cases hc.symm.trans hc'
      exact same rfl (h.enters (by rw [hrun]; trivial) he hexit.next hexit.rootp hexit.current)
  | @reap t' m k' hc hrun hw =>
      cases hc.symm.trans h.current
      rcases waitPass_cases hw with ⟨_, hb, -⟩ | ⟨c, v, m', hc', hm, hd⟩
      · cases hb
      · refine same rfl (h.stays (executes_of_run_or_wait hrun) ?_ hd.same.next_eq hd.same.rootp
          hd.same.current)
        change Cont.executes (Function.update s.cont t .run t)
        rw [Function.update_self]
        trivial
  | @noChild t' k' hc hrun hw =>
      rcases waitPass_cases hw with ⟨_, -, rfl⟩ | ⟨c, v, m', -, hm, -⟩
      · exact same rfl h
      · cases hm
  | @waitSleep t' k₁ k' _ hc hrun hw hsl he =>
      cases hc.symm.trans h.current
      rcases waitPass_cases hw with ⟨_, -, rfl⟩ | ⟨c, v, m', -, hm, -⟩
      · obtain ⟨c, hc', rfl⟩ := sleepOn_eq_ok hsl
        cases hc.symm.trans hc'
        have hs := SameBut.setTask (t := t)
          (f := fun tp => { tp with chan := .task t, state := .stopped }) s.k rfl
        exact same rfl (h.enters (executes_of_run_or_wait hrun) he hs.next_eq hs.rootp hs.current)
      · cases hm
  | @sleep t' ch k' _ hc hrun hsl he =>
      cases hc.symm.trans h.current
      obtain ⟨c, hc', rfl⟩ := sleepOn_eq_ok hsl
      cases hc.symm.trans hc'
      have hs := SameBut.setTask (t := t)
        (f := fun tp => { tp with chan := ch, state := .stopped }) s.k rfl
      exact same rfl (h.enters (by rw [hrun]; trivial) he hs.next_eq hs.rootp hs.current)
  | @wakeup t' ch k' hc hrun hw =>
      cases hc.symm.trans h.current
      have hx : (s.cont t).executes := by rw [hrun]; trivial
      have hs := wakeup_woken hw
      exact same rfl (h.stays hx hx hs.next hs.rootp hs.current)
  | @yield t' _ hc hrun he =>
      cases hc.symm.trans h.current
      have hs := SameBut.setTask (t := t) (f := fun tp => { tp with state := .runnable }) s.k rfl
      exact same rfl (h.enters (by rw [hrun]; trivial) he hs.next_eq hs.rootp hs.current)
  | @timer t' _ hc hrun he =>
      cases hc.symm.trans h.current
      exact same rfl (h.enters (by rw [hrun]; trivial) he rfl rfl rfl)
  | @scan t' c hc ha =>
      cases hc.symm.trans h.current
      obtain ⟨r', h'⟩ := h.scan hr ha
      exact same rfl h'
  | @switch t' v c k' cont' hc hvt ha hrun hcont =>
      cases hc.symm.trans h.current
      rcases taskRun_cases hc hrun with ⟨he, -⟩ | ⟨-, hs⟩
      · exact absurd he hvt
      · obtain ⟨m, b', a', r', hm, h'⟩ := h.switch (fun he => hother (congrArg some he)) hvt ha hs
          (hlands _ _ rfl)
        exact ⟨m, b', a', r', v, h', hm⟩
  | @back t' c hc ha =>
      cases hc.symm.trans h.current
      exact absurd (h.eq_of_self ha) fun he => hother (congrArg some he.symm)
  | @trapRet t' c hc ha =>
      cases hc.symm.trans h.current
      exact absurd (h.eq_of_self ha) fun he => hother (congrArg some he.symm)


/-- A run in which `u` is not chosen. -/
theorem Waiting.run {es : List Ev} (h : Waiting u s n b a r t) (hrun : Run (Passes u) s es s') :
    ∃ m b' a' r' t', Waiting u s' m b' a' r' t' ∧
      m + es.countP Ev.isSwitch ≤ n + es.countP Ev.isFork := by
  induction hrun generalizing n b a r t with
  | nil s => exact ⟨n, b, a, r, t, h, Nat.le_refl _⟩
  | @cons s s₁ s' e es hs _ ih =>
      obtain ⟨m₁, b₁, a₁, r₁, t₁, h₁, hm₁⟩ := h.step hs
      obtain ⟨m, b', a', r', t', h', hm⟩ := ih h₁
      refine ⟨m, b', a', r', t', h', ?_⟩
      rw [List.countP_cons, List.countP_cons]
      omega

end

end Sched

end Chunix
