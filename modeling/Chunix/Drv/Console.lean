import Chunix.Linked.Circular
import Chunix.Machine.Run
import Chunix.Trap.Syscall

/-!
# Typed input

The interrupt handlers of the keyboard and of the serial line call `console_isr`,
which puts the characters into the buffer of the console, and `get_c` takes them
out of it. The buffer has `CONS_SIZE` places, is never found full, and the
character `0xff` has the value by which `get_c` says that there is none. Input is
delivered exactly as long as fewer than `CONS_SIZE` characters are waiting and no
character is `0xff`.
-/

namespace Chunix

namespace Syscall

open Machine Linked Sfs

/-- `get_c(0)`: its result, and the buffer after it. -/
def Console.get (c : Console) : Int × Console :=
  if c.rpos = c.wpos then (-1, c) else (char (c.buf c.rpos), c.next)

/-- A character is put into the buffer. -/
def Console.put (c : Console) (val : UInt8) : Console :=
  { c with
    buf := Function.update c.buf c.wpos val
    wpos := if 2000 ≤ c.wpos + 1 then 0 else c.wpos + 1 }

/-- `console_isr` where `getc` gives the bytes of the list and then `-1`. What it
echoes is not part of the buffer. -/
def consoleIsr : List UInt8 → Console → Console
  | [], c => c
  | b :: bs, c => if b = 0 then consoleIsr bs c else consoleIsr bs (c.put b)

/-- The system calls take their characters from the buffer by `Console.get`. -/
theorem getC_eq (w : World) :
    getC w = .ok (w.cons.get.1, { w with cons := w.cons.get.2 }) := by
  by_cases h : w.cons.rpos = w.cons.wpos
  · have hget : w.cons.get = (-1, w.cons) := by rw [Console.get, if_pos h]
    rw [hget]
    have hcons : Act.gets (fun w : World => w.cons) w = .ok (w.cons, w) := rfl
    rw [getC, Act.bind_of_ok hcons, if_pos h]
    rfl
  · have hget : w.cons.get = (char (w.cons.buf w.cons.rpos), w.cons.next) := by
      rw [Console.get, if_neg h]
    rw [hget]
    have hcons : Act.gets (fun w : World => w.cons) w = .ok (w.cons, w) := rfl
    rw [getC, Act.bind_of_ok hcons, if_neg h]
    rfl

/-- What happens to the buffer: an interrupt in which `getc` gives some bytes, or a
call `get_c(0)` with its result. -/
inductive Input
  | isr (bs : List UInt8)
  | get (r : Int)
deriving DecidableEq, Repr

/-- The buffer before and after. -/
def Typing (c : Console) : Input → Console → Prop
  | .isr bs, c' => c' = consoleIsr bs c
  | .get r, c' => c.get = (r, c')

/-- The buffer as `cons_init` leaves it. -/
def Console.init (buf : Nat → UInt8) : Console := ⟨buf, 0, 0⟩

/-- The characters that were delivered, in order. -/
def delivered : List Input → List UInt8
  | [] => []
  | .isr bs :: es => bs.filter (· ≠ 0) ++ delivered es
  | .get _ :: es => delivered es

/-- The characters that `get_c` returned, in order. -/
def returned : List Input → List Int
  | [] => []
  | .isr _ :: es => returned es
  | .get r :: es => if r = -1 then returned es else r :: returned es

/-- Nothing is lost, duplicated or reordered: what was returned is a prefix of what
was delivered, and whenever `get_c` said that there is no character all had been
returned. -/
structure Exact (es : List Input) : Prop where
  returned_prefix : returned es <+: (delivered es).map char
  no_data : ∀ es₁ es₂, es = es₁ ++ .get (-1) :: es₂ → returned es₁ = (delivered es₁).map char

/-- Fewer than `CONS_SIZE` characters wait at any time, and none of them is `0xff`. -/
structure Roomy (es : List Input) : Prop where
  room : ∀ es₁, es₁ <+: es → (delivered es₁).length < (returned es₁).length + 2000
  plain : 0xff ∉ delivered es

section

variable {c c' : Console} {es es' : List Input} {d : List UInt8} {n : Nat}

@[simp] theorem delivered_append (es es' : List Input) :
    delivered (es ++ es') = delivered es ++ delivered es' := by
  induction es with
  | nil => rfl
  | cons e es ih =>
      cases e with
      | isr bs => simp [delivered, ih]
      | get r => simp [delivered, ih]

@[simp] theorem returned_append (es es' : List Input) :
    returned (es ++ es') = returned es ++ returned es' := by
  induction es with
  | nil => rfl
  | cons e es ih =>
      cases e with
      | isr bs => simp [returned, ih]
      | get r =>
          by_cases hr : r = -1
          · simp [returned, hr, ih]
          · simp [returned, hr, ih]

/-- The buffer after `d` has been delivered and `n` characters have been read. -/
def Console.Tracks (c : Console) (d : List UInt8) (n : Nat) : Prop :=
  Linked.Tracks 2000 d n c.buf c.rpos c.wpos

theorem tracks_init (buf : Nat → UInt8) : (Console.init buf).Tracks [] 0 := tracks_nil

theorem Console.Tracks.put (h : c.Tracks d n) (val : UInt8) : (c.put val).Tracks (d ++ [val]) n := by
  have hb := (Linked.Tracks.bounds h (by decide)).2
  have hnext : (if 2000 ≤ c.wpos + 1 then 0 else c.wpos + 1) = nextPos 2000 c.wpos := by
    unfold nextPos
    split_ifs <;> omega
  have hput := Linked.Tracks.put h (by decide) val
  rw [← hnext] at hput
  exact hput

theorem Console.Tracks.isr (h : c.Tracks d n) (bs : List UInt8) :
    (consoleIsr bs c).Tracks (d ++ bs.filter (· ≠ 0)) n := by
  induction bs generalizing c d with
  | nil => simpa [consoleIsr] using h
  | cons b bs ih =>
      by_cases hb : b = 0
      · simpa [consoleIsr, hb] using ih h
      · simpa [consoleIsr, hb] using ih (h.put b)

/-- What a call of `get_c` finds. -/
theorem Console.Tracks.get (h : c.Tracks d n) :
    (c.rpos = c.wpos ∧ c.get = (-1, c)) ∨
      (c.rpos ≠ c.wpos ∧ c.get = (char (c.buf c.rpos), c.next) ∧ c.next.Tracks d (n + 1)) := by
  by_cases he : c.rpos = c.wpos
  · exact Or.inl ⟨he, by rw [Console.get, if_pos he]⟩
  · exact Or.inr ⟨he, by rw [Console.get, if_neg he], Linked.Tracks.get h (by decide) he⟩

theorem char_eq_neg_one {b : UInt8} : char b = -1 ↔ b = 0xff := by
  have hb := b.toNat_lt
  have hff : (0xff : UInt8).toNat = 255 := rfl
  rw [← UInt8.toNat_inj, hff]
  unfold char
  by_cases hlt : b.toNat < 128
  · rw [if_pos hlt]
    omega
  · rw [if_neg hlt]
    omega

theorem neg_one_not_mem_returned (es : List Input) : -1 ∉ returned es := by
  induction es with
  | nil => simp [returned]
  | cons e es ih =>
      cases e with
      | isr bs => simpa [returned] using ih
      | get r =>
          by_cases hr : r = -1
          · simpa [returned, hr] using ih
          · simpa [returned, hr] using ⟨Ne.symm hr, ih⟩

/-- One more event. -/
theorem Exact.snoc {e : Input} (h : Exact es)
    (hfirst : returned (es ++ [e]) <+: (delivered (es ++ [e])).map char)
    (hno : e = .get (-1) → returned es = (delivered es).map char) : Exact (es ++ [e]) where
  returned_prefix := hfirst
  no_data := by
    intro es₁ es₂ heq
    rcases List.eq_nil_or_concat es₂ with rfl | ⟨es₂, e', rfl⟩
    · obtain ⟨rfl, he⟩ := List.append_inj' heq rfl
      exact hno (List.singleton_inj.1 he)
    · refine h.no_data es₁ es₂ ?_
      rw [List.concat_eq_append, ← List.cons_append, ← List.append_assoc] at heq
      exact (List.append_inj' heq rfl).1

/-- What holds between the events so far and the buffer, as long as there is
room. -/
structure Faithful (es : List Input) (c : Console) (n : Nat) : Prop where
  tracks : c.Tracks (delivered es) n
  read : returned es = ((delivered es).take n).map char
  exact : Exact es

theorem Faithful.length (h : Faithful es c n) : (returned es).length = n := by
  have hle : n ≤ (delivered es).length := Linked.Tracks.le h.tracks
  rw [h.read, List.length_map, List.length_take, min_eq_left hle]

theorem Faithful.isr (h : Faithful es c n) (bs : List UInt8) :
    Faithful (es ++ [.isr bs]) (consoleIsr bs c) n := by
  have hle : n ≤ (delivered es).length := Linked.Tracks.le h.tracks
  have hd : delivered (es ++ [.isr bs]) = delivered es ++ bs.filter (· ≠ 0) := by
    simp [delivered]
  have hr : returned (es ++ [.isr bs]) = returned es := by simp [returned]
  have hread : returned (es ++ [.isr bs]) =
      ((delivered (es ++ [.isr bs])).take n).map char := by
    rw [hr, hd, List.take_append_of_le_length hle]
    exact h.read
  refine ⟨hd ▸ h.tracks.isr bs, hread, h.exact.snoc ?_ (by simp)⟩
  rw [hread]
  exact (List.take_prefix _ _).map char

/-- A call of `get_c` while fewer than `CONS_SIZE` characters are waiting. -/
theorem Faithful.get {r : Int} (h : Faithful es c n) (hr : c.get = (r, c'))
    (hroom : (delivered es).length < n + 2000) (hplain : 0xff ∉ delivered es) :
    ∃ n', Faithful (es ++ [.get r]) c' n' := by
  have hd : delivered (es ++ [.get r]) = delivered es := by simp [delivered]
  rcases h.tracks.get with ⟨he, hget⟩ | ⟨hne, hget, hnext⟩
  · obtain ⟨rfl, rfl⟩ := Prod.mk.inj (hr.symm.trans hget)
    have hall : n = (delivered es).length := Linked.Tracks.eq_length h.tracks hroom he
    have hr' : returned (es ++ [.get (-1)]) = returned es := by simp [returned]
    have hread : returned es = (delivered es).map char := by
      rw [h.read, hall, List.take_length]
    refine ⟨n, hd ▸ h.tracks, by rw [hr', hd, h.read], h.exact.snoc ?_ fun _ => hread⟩
    rw [hr', hd]
    exact h.exact.returned_prefix
  · obtain ⟨rfl, rfl⟩ := Prod.mk.inj (hr.symm.trans hget)
    have hlt : n < (delivered es).length := Linked.Tracks.lt h.tracks hne
    have hhead : c.buf c.rpos = (delivered es)[n] := Linked.Tracks.head h.tracks hroom hlt
    have hchar : char (c.buf c.rpos) ≠ -1 := by
      intro he
      rw [char_eq_neg_one, hhead] at he
      exact hplain (he ▸ List.getElem_mem hlt)
    have hr' : returned (es ++ [.get (char (c.buf c.rpos))]) =
        ((delivered es).take (n + 1)).map char := by
      have hone : returned [.get (char (c.buf c.rpos))] = [char (delivered es)[n]] := by
        rw [returned, if_neg hchar, hhead]
        rfl
      rw [returned_append, hone, h.read, List.take_add_one, List.getElem?_eq_getElem hlt,
        List.map_append]
      rfl
    refine ⟨n + 1, hd ▸ hnext, by rw [hr', hd], h.exact.snoc ?_ fun he => ?_⟩
    · rw [hr', hd]
      exact (List.take_prefix _ _).map char
    · exact absurd (Input.get.inj he) hchar

/-- The run lemma: with room, input is delivered exactly. -/
theorem faithful_run (hrun : Run Typing c es c') : ∀ {pre : List Input} {n : Nat},
    Faithful pre c n → Roomy (pre ++ es) → ∃ n', Faithful (pre ++ es) c' n' := by
  induction hrun with
  | nil c =>
      intro pre n h _
      exact ⟨n, by rwa [List.append_nil]⟩
  | @cons c c₁ c' e es hstep _ ih =>
      intro pre n h hroomy
      rw [← List.singleton_append, ← List.append_assoc] at hroomy ⊢
      cases e with
      | isr bs =>
          obtain rfl : c₁ = consoleIsr bs c := hstep
          exact ih (h.isr bs) hroomy
      | get r =>
          have hpre : pre <+: pre ++ [.get r] ++ es :=
            (List.prefix_append pre [.get r]).trans (List.prefix_append _ es)
          have hroom := hroomy.room pre hpre
          rw [h.length] at hroom
          have hplain : 0xff ∉ delivered pre := by
            intro hmem
            refine hroomy.plain ?_
            rw [delivered_append, delivered_append]
            exact List.mem_append_left _ (List.mem_append_left _ hmem)
          obtain ⟨n', h'⟩ := h.get hstep hroom hplain
          exact ih h' hroomy

/-- In every run the buffer tracks what is delivered, and no more characters are
returned than are read. Once `CONS_SIZE` of them are waiting, they wait forever. -/
theorem tracks_run (hrun : Run Typing c es c') : ∀ {d : List UInt8} {n : Nat}, c.Tracks d n →
    ∃ n', c'.Tracks (d ++ delivered es) n' ∧ n + (returned es).length ≤ n' ∧
      (n + 2000 ≤ d.length → n' + 2000 ≤ (d ++ delivered es).length) := by
  induction hrun with
  | nil c =>
      intro d n h
      exact ⟨n, by simpa [delivered] using h, by simp [returned], by simp [delivered]⟩
  | @cons c c₁ c' e es hstep _ ih =>
      intro d n h
      cases e with
      | isr bs =>
          obtain rfl : c₁ = consoleIsr bs c := hstep
          obtain ⟨n', h', hle, hfull⟩ := ih (h.isr bs)
          refine ⟨n', by simpa [delivered] using h', by simpa [returned] using hle, fun hd => ?_⟩
          have := hfull (by rw [List.length_append]; omega)
          simpa [delivered] using this
      | get r =>
          have hr : c.get = (r, c₁) := hstep
          rcases h.get with ⟨-, hget⟩ | ⟨hne, hget, hnext⟩
          · obtain ⟨rfl, rfl⟩ := Prod.mk.inj (hr.symm.trans hget)
            obtain ⟨n', h', hle, hfull⟩ := ih h
            exact ⟨n', h', by simpa [returned] using hle, hfull⟩
          · obtain ⟨rfl, rfl⟩ := Prod.mk.inj (hr.symm.trans hget)
            obtain ⟨n', h', hle, hfull⟩ := ih hnext
            refine ⟨n', h', ?_, fun hd => hfull (Linked.Tracks.full_get h hd hne)⟩
            have hlen : (returned (.get (char (c.buf c.rpos)) :: es)).length ≤
                (returned es).length + 1 := by
              by_cases hc : char (c.buf c.rpos) = -1
              · simp [returned, hc]
              · simp [returned, hc]
            omega

/-- Enough calls of `get_c` empty the buffer. -/
theorem exists_drained (h : c.Tracks d n) : ∃ es c', Run Typing c (es ++ [.get (-1)]) c' ∧
    ∀ e ∈ es, ∃ r, e = .get r := by
  have hle : n ≤ d.length := Linked.Tracks.le h
  generalize hk : d.length - n = k
  induction k generalizing c n with
  | zero =>
      have he : c.rpos = c.wpos := by
        by_contra hne
        have := Linked.Tracks.lt h hne
        omega
      refine ⟨[], c, Run.single (?_ : c.get = (-1, c)), by simp⟩
      rw [Console.get, if_pos he]
  | succ k ih =>
      rcases h.get with ⟨-, hget⟩ | ⟨hne, hget, hnext⟩
      · exact ⟨[], c, Run.single hget, by simp⟩
      · have hlt : n < d.length := Linked.Tracks.lt h hne
        obtain ⟨es, c', hrun, hes⟩ := ih hnext (by omega) (by omega)
        refine ⟨.get (char (c.buf c.rpos)) :: es, c', Run.cons hget hrun, ?_⟩
        intro e he
        rcases List.mem_cons.1 he with rfl | he
        · exact ⟨_, rfl⟩
        · exact hes e he

theorem delivered_gets (h : ∀ e ∈ es, ∃ r, e = .get r) : delivered es = [] := by
  induction es with
  | nil => rfl
  | cons e es ih =>
      obtain ⟨r, rfl⟩ := h e List.mem_cons_self
      exact ih fun e he => h e (List.mem_cons_of_mem _ he)

theorem Roomy.gets (h : Roomy es) (hes : ∀ e ∈ es', ∃ r, e = .get r) : Roomy (es ++ es') where
  room := by
    intro es₁ h₁
    rcases List.prefix_or_prefix_of_prefix h₁ (List.prefix_append es es') with h₁ | ⟨es₂, rfl⟩
    · exact h.room es₁ h₁
    · have h₂ : es₂ <+: es' := (List.prefix_append_right_inj es).1 h₁
      have hes₂ : ∀ e ∈ es₂, ∃ r, e = .get r := fun e he => hes e (h₂.subset he)
      have := h.room es List.prefix_rfl
      rw [delivered_append, delivered_gets hes₂, List.append_nil, returned_append,
        List.length_append]
      omega
  plain := by
    rw [delivered_append, delivered_gets hes, List.append_nil]
    exact h.plain

/-- From the start of the console, input is delivered exactly, whatever calls of
`get_c` follow, if and only if there is room for all that is typed and no byte is
`0xff`. The two positions never leave the buffer. -/
theorem typing_exact_iff {buf : Nat → UInt8} (hrun : Run Typing (Console.init buf) es c) :
    (c.rpos < 2000 ∧ c.wpos < 2000) ∧
      ((∀ es' c', Run Typing c es' c' → (∀ e ∈ es', ∃ r, e = .get r) → Exact (es ++ es')) ↔
        Roomy es) := by
  obtain ⟨n, htr, -, -⟩ := tracks_run hrun (tracks_init buf)
  rw [List.nil_append] at htr
  refine ⟨Linked.Tracks.bounds htr (by decide), fun hexact => ?_, fun hroomy es' c' hrun' hes => ?_⟩
  · obtain ⟨es', c', hdrain, hes⟩ := exists_drained htr
    obtain ⟨c₁, hgets, -⟩ := hdrain.split
    -- when the buffer is empty at last, everything has been returned
    have hall : returned (es ++ es') = (delivered es).map char := by
      have hgets' : ∀ e ∈ es' ++ [.get (-1)], ∃ r, e = .get r := by
        intro e he
        rcases List.mem_append.1 he with he | he
        · exact hes e he
        · exact ⟨-1, List.mem_singleton.1 he⟩
      have hno := (hexact _ c' hdrain hgets').no_data (es ++ es') []
        (by rw [List.append_assoc])
      rwa [delivered_append, delivered_gets hes, List.append_nil] at hno
    refine ⟨fun es₁ h₁ => ?_, fun hff => ?_⟩
    · obtain ⟨es₂, rfl⟩ := h₁
      obtain ⟨c₂, hrun₁, hrun₂⟩ := hrun.split
      obtain ⟨n₁, htr₁, hle₁, -⟩ := tracks_run hrun₁ (tracks_init buf)
      obtain ⟨n₂, htr₂, hle₂, hfull₂⟩ := tracks_run (hrun₂.append hgets) htr₁
      have hn₂ : n₂ ≤ _ := Linked.Tracks.le htr₂
      have hlen := congrArg List.length hall
      simp only [List.nil_append, delivered_append, returned_append, delivered_gets hes,
        List.length_append, List.length_map, List.length_nil] at hlen hle₁ hle₂ hfull₂ hn₂
      by_contra hfull
      -- the characters that wait at this point are never returned
      have := hfull₂ (by omega)
      omega
    · have hmem : (-1 : Int) ∈ returned (es ++ es') := by
        rw [hall]
        exact List.mem_map.2 ⟨0xff, hff, char_eq_neg_one.2 rfl⟩
      exact neg_one_not_mem_returned _ hmem
  · have hstart : Faithful [] (Console.init buf) 0 :=
      ⟨tracks_init buf, rfl, ⟨List.nil_prefix, fun es₁ es₂ h => by simp at h⟩⟩
    obtain ⟨n', h'⟩ := faithful_run (hrun.append hrun') hstart (hroomy.gets hes)
    exact h'.exact

/-- Two characters are typed and the first of them is read. -/
theorem typing_exact_two : ∃ c, Run Typing (Console.init fun _ => 0)
    [.isr [0x61, 0x62], .get 0x61] c ∧ Roomy [.isr [0x61, 0x62], .get 0x61] ∧
      Exact [.isr [0x61, 0x62], .get 0x61] := by
  have hrun : Run Typing (Console.init fun _ => 0) [.isr [0x61, 0x62], .get 0x61]
      ((consoleIsr [0x61, 0x62] (Console.init fun _ => 0)).next) :=
    .cons rfl (.single rfl)
  have hroomy : Roomy [.isr [0x61, 0x62], .get 0x61] := by
    refine ⟨fun es₁ h₁ => ?_, by decide⟩
    obtain ⟨es₂, he⟩ := h₁
    have hlen := congrArg (fun es => (delivered es).length) he
    simp only [delivered_append, List.length_append] at hlen
    have htwo : (delivered [.isr [0x61, 0x62], .get 0x61]).length = 2 := by decide
    omega
  refine ⟨_, hrun, hroomy, ?_⟩
  simpa using (typing_exact_iff hrun).2.2 hroomy [] _ (.nil _) (by simp)

/-- `CONS_SIZE` characters are typed before any of them is read, and `get_c` finds
none. -/
theorem typing_lost : ∃ c, Run Typing (Console.init fun _ => 0)
    [.isr (List.replicate 2000 0x61), .get (-1)] c ∧
      ¬ Exact [.isr (List.replicate 2000 0x61), .get (-1)] := by
  have hfilter : (List.replicate 2000 (0x61 : UInt8)).filter (· ≠ 0) = List.replicate 2000 0x61 := by
    rw [List.filter_replicate, if_pos (by decide)]
  have htr := (tracks_init fun _ => 0).isr (List.replicate 2000 0x61)
  rw [List.nil_append, hfilter] at htr
  have hempty : (consoleIsr (List.replicate 2000 0x61) (Console.init fun _ => 0)).rpos =
      (consoleIsr (List.replicate 2000 0x61) (Console.init fun _ => 0)).wpos := by
    have hr := Linked.Tracks.rpos_eq htr
    have hw := Linked.Tracks.wpos_eq htr
    rw [List.length_replicate] at hw
    exact hr.trans hw.symm
  have hget : Typing (consoleIsr (List.replicate 2000 0x61) (Console.init fun _ => 0)) (.get (-1))
      (consoleIsr (List.replicate 2000 0x61) (Console.init fun _ => 0)) := by
    rw [Typing, Console.get, if_pos hempty]
  refine ⟨_, .cons rfl (.single hget), fun hexact => ?_⟩
  · have hno := hexact.no_data [.isr (List.replicate 2000 0x61)] [] rfl
    simp only [returned, delivered, hfilter, List.append_nil] at hno
    have hlen := congrArg List.length hno
    rw [List.length_map, List.length_replicate] at hlen
    exact absurd hlen (by decide)

end

end Syscall

end Chunix
