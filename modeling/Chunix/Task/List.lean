import Chunix.Task.Create
import Chunix.Task.Safety

/-!
# The task list

`sched_yield`, `wakeup`, `wait` and `exit` walk the list from `rootp` and rely on
it to end and to hold every task. `fork` pushes the first unused slot on the
list. `wait` frees a slot and leaves it on the list, so a later `fork` may push a
slot that is there already, which closes a cycle and cuts off the tasks before
it. As long as no fork does so the list stays what its readers need.
-/

namespace Chunix

namespace Sched

open Machine Linked Chunix.Task Kernel

/-- The list from `rootp` ends, holds no slot twice and holds every slot in
use. -/
def ListOk (k : Kernel) : Prop :=
  ∃ l, IsChain k.next k.rootp l ∧ l.Nodup ∧ ∀ t, k.state t ≠ .unused → t ∈ l

/-- The slot `t` is on the list from `rootp`. -/
def OnList (k : Kernel) (t : Slot) : Prop := ∃ l, IsChain k.next k.rootp l ∧ t ∈ l

/-- The relations between tasks that keep `wait` away from the current task and
from `inittask`. -/
structure FamilyOk (k : Kernel) : Prop where
  current : ∀ c, k.current = some c → k.state c ≠ .unused
  parent : ∀ t, (k.tasks t).parent ≠ some t
  init : ∀ i, k.inittask = some i → (k.tasks i).parent = none ∧ k.state i ≠ .unused

theorem ListOk.of_eq {k k' : Kernel} (h : ListOk k) (hroot : k'.rootp = k.rootp)
    (hnext : k'.next = k.next) (hst : ∀ t, k'.state t ≠ .unused → k.state t ≠ .unused) :
    ListOk k' := by
  obtain ⟨l, hl, hnd, hall⟩ := h
  exact ⟨l, by rw [hroot, hnext]; exact hl, hnd, fun t ht => hall t (hst t ht)⟩

/-- Pushing a slot keeps the list in order exactly when the slot is not on it. -/
theorem listOk_push {k k' : Kernel} {u : Slot} (h : ListOk k) (hp : Pushed u k k') :
    ListOk k' ↔ ¬ OnList k u := by
  obtain ⟨l, hl, -, hall⟩ := h
  constructor
  · rintro ⟨l', hl', -, -⟩ ⟨l₁, hl₁, hu⟩
    rw [hp.next, hp.rootp] at hl'
    exact hl₁.not_push hu l' hl'
  · intro hu
    have hul : u ∉ l := fun hm => hu ⟨l, hl, hm⟩
    have hl' : IsChain k'.next k'.rootp (u :: l) := by
      rw [hp.next, hp.rootp]
      exact hl.push hul
    refine ⟨u :: l, hl', hl'.nodup, ?_⟩
    intro t ht
    by_cases htu : t = u
    · exact htu ▸ List.mem_cons_self
    · have hst : k'.state t = k.state t := congrArg Task.state (hp.tasks t htu)
      exact List.mem_cons_of_mem u (hall t (hst ▸ ht))

/-- The slot a fork takes is not on the list. Other steps are free. -/
def TakesFresh (k : Kernel) : Ev → Prop
  | .fork _ (some u) => ¬ OnList k u
  | _ => True

/-- A step keeps the list in order exactly when it does not push a slot that is
on it. -/
theorem listOk_effect {s : Sys} {t : Slot} {e : Ev} {k' : Kernel} (h : Effect s t e k')
    (hl : ListOk s.k) (hf : FamilyOk s.k) (hc : s.k.current = some t) :
    ListOk k' ↔ TakesFresh s.k e := by
  have htu := hf.current t hc
  have setTask : ∀ f : Task → Task, (f (s.k.tasks t)).next = (s.k.tasks t).next →
      ListOk (s.k.setTask t f) := by
    intro f hn
    have hs := SameBut.setTask (t := t) (f := f) s.k hn
    refine hl.of_eq hs.rootp hs.next_eq ?_
    intro u hu
    by_cases hut : u = t
    · exact hut ▸ htu
    · rw [Kernel.state, hs.tasks u hut] at hu
      exact hu
  cases h with
  | same he h' =>
      have hk := hl.of_eq h'.rootp h'.next fun u hu => h'.state u ▸ hu
      have hfresh : TakesFresh s.k e := by
        unfold TakesFresh
        split
        · exact he.elim
        · trivial
      exact iff_of_true hk hfresh
  | fork h' => exact listOk_push hl h'.toPushed
  | exit _ h' =>
      refine iff_of_true (hl.of_eq h'.rootp h'.next ?_) trivial
      intro u hu
      by_cases hut : u = t
      · exact hut ▸ htu
      · rcases h'.state u hut with hst | ⟨hst, -, -⟩
        · exact hst ▸ hu
        · simp [hst]
  | @reap v _ _ h' =>
      refine iff_of_true (hl.of_eq h'.same.rootp h'.same.next_eq ?_) trivial
      intro u hu
      by_cases huv : u = v
      · simp [huv, h'.zombie]
      · rw [Kernel.state, h'.same.tasks u huv] at hu
        exact hu
  | sleep _ => exact iff_of_true (setTask _ rfl) trivial
  | wakeup h' =>
      refine iff_of_true (hl.of_eq h'.rootp h'.next ?_) trivial
      intro u hu
      rcases h'.state u with hst | ⟨hst, -, -⟩
      · exact hst ▸ hu
      · simp [hst]
  | yield _ => exact iff_of_true (setTask _ rfl) trivial
  | @switch v _ hv hr h' =>
      refine iff_of_true (hl.of_eq h'.rootp h'.next ?_) trivial
      intro u hu
      by_cases hut : u = t
      · exact hut ▸ htu
      · by_cases huv : u = v
        · simp [huv, hr]
        · exact h'.state u hut huv ▸ hu
  | clear _ => exact iff_of_true (setTask _ rfl) trivial

theorem familyOk_effect {s : Sys} {t : Slot} {e : Ev} {k' : Kernel} (h : Effect s t e k')
    (hf : FamilyOk s.k) (hc : s.k.current = some t) : FamilyOk k' := by
  have htu := hf.current t hc
  have hcur : ∀ c, s.k.current = some c → c = t := fun c h' => Option.some.inj (h'.symm.trans hc)
  -- A change of the fields of the current task other than its parent.
  have setTask : ∀ f : Task → Task, (f (s.k.tasks t)).parent = (s.k.tasks t).parent →
      (f (s.k.tasks t)).state ≠ .unused → FamilyOk (s.k.setTask t f) := by
    intro f hp hst
    have hpar : ∀ u, ((s.k.setTask t f).tasks u).parent = (s.k.tasks u).parent := by
      intro u
      by_cases hut : u = t
      · subst hut; simpa using hp
      · rw [setTask_tasks_of_ne _ _ hut]
    have hused : ∀ u, s.k.state u ≠ .unused → (s.k.setTask t f).state u ≠ .unused := by
      intro u hu
      by_cases hut : u = t
      · subst hut; simpa [Kernel.state] using hst
      · rw [Kernel.state, setTask_tasks_of_ne _ _ hut]; exact hu
    exact ⟨fun c hc' => hused c (hf.current c hc'), fun u => by rw [hpar u]; exact hf.parent u,
      fun i hi => ⟨by rw [hpar i]; exact (hf.init i hi).1, hused i (hf.init i hi).2⟩⟩
  -- Children handed to `inittask`, which is nobody's child.
  have handed : k'.inittask = s.k.inittask → (∀ u, s.k.state u ≠ .unused → k'.state u ≠ .unused) →
      (∀ u, (k'.tasks u).parent = (s.k.tasks u).parent ∨
        ((s.k.tasks u).parent ≠ none ∧ (k'.tasks u).parent = s.k.inittask)) →
      (∀ c, k'.current = some c → k'.state c ≠ .unused) → FamilyOk k' := by
    intro hinit hused hpar hcurr
    refine ⟨hcurr, ?_, ?_⟩
    · intro u
      rcases hpar u with hp | ⟨hn, hp⟩
      · rw [hp]; exact hf.parent u
      · rw [hp]
        exact fun hi => hn (hf.init u hi).1
    · intro i hi
      rw [hinit] at hi
      refine ⟨?_, hused i (hf.init i hi).2⟩
      rcases hpar i with hp | ⟨hn, -⟩
      · rw [hp]; exact (hf.init i hi).1
      · exact absurd (hf.init i hi).1 hn
  cases h with
  | same _ h' =>
      refine ⟨fun c hc' => ?_, fun u => ?_, fun i hi => ?_⟩
      · rw [h'.state c]; exact hf.current c (h'.current ▸ hc')
      · rcases h'.parent u with hp | ⟨hu, hp⟩
        · rw [hp]; exact hf.parent u
        · rw [hp]
          exact fun hu' => hf.current u hu' hu
      · rw [h'.inittask] at hi
        have hii := hf.init i hi
        exact ⟨by rw [h'.used i hii.2]; exact hii.1, by rw [h'.state i]; exact hii.2⟩
  | @fork v _ _ h' =>
      have hv := firstUnused_state h'.slot
      have hold : ∀ u, s.k.state u ≠ .unused → k'.tasks u = s.k.tasks u := by
        intro u hu
        refine h'.tasks u ?_
        rintro rfl
        exact hu hv
      have hused : ∀ u, s.k.state u ≠ .unused → k'.state u ≠ .unused := by
        intro u hu
        rw [Kernel.state, hold u hu]
        exact hu
      refine ⟨fun c hc' => hused c (hf.current c (h'.current ▸ hc')), fun u => ?_, fun i hi => ?_⟩
      · by_cases huv : u = v
        · rw [huv, h'.parent]
          exact fun hv' => hf.current v hv' hv
        · rw [h'.tasks u huv]; exact hf.parent u
      · rw [h'.inittask] at hi
        have hii := hf.init i hi
        exact ⟨by rw [hold i hii.2]; exact hii.1, hused i hii.2⟩
  | exit _ h' =>
      have hused : ∀ u, s.k.state u ≠ .unused → k'.state u ≠ .unused := by
        intro u hu
        by_cases hut : u = t
        · simp [hut, h'.zombie]
        · rcases h'.state u hut with hst | ⟨-, -, hst⟩
          · exact hst ▸ hu
          · simp [hst]
      exact handed h'.inittask hused h'.parent
        fun c hc' => hused c (hf.current c (h'.current ▸ hc'))
  | @reap v _ _ h' =>
      -- The freed slot is neither the current task nor `inittask`.
      have hused : ∀ u, s.k.state u ≠ .unused → (s.k.tasks u).parent ≠ some t →
          k'.state u ≠ .unused := by
        intro u hu hp
        have huv : u ≠ v := by
          rintro rfl
          exact hp h'.parent
        rw [Kernel.state, h'.same.tasks u huv]
        exact hu
      refine ⟨fun c hc' => ?_, fun u => ?_, fun i hi => ?_⟩
      · rw [h'.same.current] at hc'
        rw [hcur c hc']
        exact hused t htu (hf.parent t)
      · by_cases huv : u = v
        · rw [huv, h'.orphan]; simp
        · rw [h'.same.tasks u huv]; exact hf.parent u
      · rw [h'.same.inittask] at hi
        have hii := hf.init i hi
        refine ⟨?_, hused i hii.2 (by simp [hii.1])⟩
        by_cases hiv : i = v
        · rw [hiv]; exact h'.orphan
        · rw [h'.same.tasks i hiv]; exact hii.1
  | sleep _ => exact setTask _ rfl (by simp)
  | wakeup h' =>
      have hused : ∀ u, s.k.state u ≠ .unused → k'.state u ≠ .unused := by
        intro u hu
        rcases h'.state u with hst | ⟨-, -, hst⟩
        · exact hst ▸ hu
        · simp [hst]
      exact handed h'.inittask hused h'.parent
        fun c hc' => hused c (hf.current c (h'.current ▸ hc'))
  | yield _ => exact setTask _ rfl (by simp)
  | @switch v _ hv hr h' =>
      have hused : ∀ u, s.k.state u ≠ .unused → k'.state u ≠ .unused := by
        intro u hu
        by_cases hut : u = t
        · rw [hut, h'.outgoing]
          split
          · simp
          · exact htu
        · by_cases huv : u = v
          · simp [huv, h'.running]
          · exact h'.state u hut huv ▸ hu
      refine handed h'.inittask hused (fun u => Or.inl (h'.parent u)) ?_
      intro c hc'
      cases h'.current.symm.trans hc'
      simp [h'.running]
  | clear _ => exact setTask _ rfl htu

/-- The kernel after some successful calls of `task_create`, the first of which
found the table empty. -/
inductive Created : Kernel → Prop
  | start {k} (ht : k.tasks = fun _ => Task.zero) (hr : k.rootp = none) : Created k
  | create {k k' img binary t} (h : Created k)
      (hc : taskCreate img binary k = .ok (some t, k')) : Created k'

theorem Created.listOk {k : Kernel} (h : Created k) :
    ListOk k ∧ (∀ t, OnList k t → k.state t ≠ .unused) ∧ ∀ t, (k.tasks t).parent = none := by
  induction h with
  | start ht hr =>
      refine ⟨⟨[], by simpa [isChain_nil] using hr, List.nodup_nil, ?_⟩, ?_, ?_⟩
      · intro t h
        simp [Kernel.state, ht, Task.zero] at h
      · rintro t ⟨l, hl, hm⟩
        rw [hr] at hl
        cases l with
        | nil => simp at hm
        | cons a l => exact absurd hl.1 (by simp)
      · intro t
        simp [ht, Task.zero]
  | @create k k' img binary u h hc ih =>
      obtain ⟨hl, hon, hpar⟩ := ih
      have hk := taskCreate_some hc
      have hu : ¬ OnList k u := fun hu => hon u hu (firstUnused_state hk.slot)
      refine ⟨(listOk_push hl hk.toPushed).2 hu, ?_, ?_⟩
      · rintro t ⟨l', hl', ht⟩
        by_cases htu : t = u
        · simp [htu, hk.state]
        · obtain ⟨l, hl, -, -⟩ := hl
          have hul : u ∉ l := fun hm => hu ⟨l, hl, hm⟩
          rw [hk.next, hk.rootp] at hl'
          rw [hl'.unique (hl.push hul)] at ht
          have hst := hon t ⟨l, hl, List.mem_of_ne_of_mem htu ht⟩
          rw [Kernel.state, hk.tasks t htu]
          exact hst
      · intro t
        by_cases htu : t = u
        · rw [htu, hk.parent, hpar]
        · rw [hk.tasks t htu, hpar]

/-- The kernel as the scheduler starts: `inittask` is one of the created tasks
and `current` is the first task of the list. -/
def Booted (k : Kernel) : Prop :=
  ∃ k₀ i, Created k₀ ∧ k₀.state i ≠ .unused ∧
    k = { k₀ with inittask := some i, current := k₀.rootp }

theorem Booted.listOk {k : Kernel} (h : Booted k) : ListOk k ∧ FamilyOk k := by
  obtain ⟨k₀, i, hc, hi, rfl⟩ := h
  obtain ⟨hl, hon, hpar⟩ := hc.listOk
  refine ⟨hl, ?_, ?_, ?_⟩
  · intro c hcur
    obtain ⟨l, hl, -, -⟩ := hl
    cases l with
    | nil => cases (isChain_nil.1 hl).symm.trans hcur
    | cons a l =>
        cases hl.1.symm.trans hcur
        exact hon c ⟨c :: l, hl, List.mem_cons_self⟩
  · intro t
    rw [hpar t]
    simp
  · intro j hj
    cases hj
    exact ⟨hpar i, hi⟩

/-- The steps in which a fork takes a slot that is not on the list. -/
def FreshStep (s : Sys) (e : Ev) (s' : Sys) : Prop := Step s e s' ∧ TakesFresh s.k e

theorem listOk_run {s s' : Sys} {es : List Ev} (h₀ : Booted s.k) (h : Run FreshStep s es s') :
    ListOk s'.k ∧ FamilyOk s'.k := by
  refine h.invariant (I := fun s => ListOk s.k ∧ FamilyOk s.k) ?_ h₀.listOk
  rintro s e s' - ⟨hl, hf⟩ ⟨hs, hfresh⟩
  obtain ⟨t, hc, he⟩ := hs.effect
  exact ⟨(listOk_effect he hl hf hc).2 hfresh, familyOk_effect he hf hc⟩

end Sched

end Chunix
