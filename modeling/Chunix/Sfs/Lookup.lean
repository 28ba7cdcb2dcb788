import Chunix.Sfs.RoundTrip

/-!
# Lookup by name

`sfs_find_index` compares the characters of the name it looks for with the name
field of an entry, and only those. The field has room for `30` characters; a name
that begins with the one looked for is accepted, and a longer one is compared with
whatever lies behind the entry in memory.
-/

namespace Chunix

namespace Sfs

open Machine Act Fs

/-- The characters of `file` behind the name field are those that lie behind the
entry in memory. -/
def TailAgrees (after : Memory) (file : CString) : Prop :=
  ∀ i, 30 + i < file.len → file.text (30 + i) = after i

/-- The comparison of `sfs_find_index` in terms of names. -/
def Accepted (after : Memory) (file name : CString) : Prop :=
  file.chars.take 30 <+: name.chars ∧ TailAgrees after file

/-- What an exact lookup returns: `1` if the name is stored, and then the initial
entry of the file of that name, which is the last entry examined. -/
def Exact (args : List Arg) (mk : Mk) (file : CString) (r : Found) : Prop :=
  (r.ret = 1 ↔ ∃ a ∈ args, a.name.chars = file.chars) ∧
    (r.ret = 1 → ∀ (k : Nat) (a : Arg), args[k]? = some a → a.name.chars = file.chars →
      ∃ e, mk.initial[k + 1]? = some e ∧ r.seen.getLast? = some e ∧ r.idx = e.2)

/-- The lookups that are exact: the name is not empty, of the names that are
accepted the name itself is stored last, and it is accepted if it is stored. -/
def Clear (args : List Arg) (after : Memory) (file : CString) : Prop :=
  file.len ≠ 0 ∧
    (∀ (k : Nat) (a : Arg), args[k]? = some a → Accepted after file a.name →
      ∃ (j : Nat) (b : Arg), k ≤ j ∧ args[j]? = some b ∧ b.name.chars = file.chars) ∧
    ((∃ a ∈ args, a.name.chars = file.chars) → TailAgrees after file)

theorem prefix_chars_iff {s t : CString} {n : Nat} :
    s.chars.take n <+: t.chars ↔ ∀ i, i < n → i < s.len → i < t.len ∧ s.text i = t.text i := by
  rw [List.prefix_iff_getElem?]
  constructor
  · intro h i hn hs
    have := h i (by simp only [List.length_take, CString.length_chars]; omega)
    obtain ⟨hi, he⟩ := List.getElem?_eq_some_iff.1 this
    rw [CString.getElem_chars, List.getElem_take, CString.getElem_chars] at he
    exact ⟨by simpa using hi, he.symm⟩
  · intro h i hi
    simp only [List.length_take, CString.length_chars] at hi
    obtain ⟨ht, he⟩ := h i (by omega) (by omega)
    refine List.getElem?_eq_some_iff.2 ⟨by simpa using ht, ?_⟩
    rw [CString.getElem_chars, List.getElem_take, CString.getElem_chars, he]

/-- The comparison on the entry of a regular file. -/
theorem hits_iff {img after : Memory} {da start : Nat} {a : Arg} {idx : Index} {file : CString}
    (h : Describes img da start a idx) (ht : etype idx = iatFileEnt) :
    hits after file idx = true ↔ Accepted after file a.name := by
  have hnd : etype idx ≠ iatDirEnt := by rw [ht]; decide
  rw [hits, if_neg hnd, accepts, decide_eq_true_iff, strncmp_eq_zero, Accepted, prefix_chars_iff]
  constructor
  · intro hall
    refine ⟨fun i hi hlen => ?_, fun i hi => ?_⟩
    · have := hall i hlen
      rw [h.name after i hi] at this
      by_cases hn : i < a.name.len
      · rw [if_pos hn] at this
        exact ⟨hn, this⟩
      · rw [if_neg hn] at this
        exact absurd this (file.nonzero i hlen)
    · rw [hall (30 + i) hi, extend, dif_neg (by omega)]
      congr 1
      omega
  · rintro ⟨hfront, htail⟩ i hi
    by_cases hi' : i < 30
    · obtain ⟨hn, he⟩ := hfront i hi' hi
      rw [h.name after i hi', if_pos hn, he]
    · have := htail (i - 30) (by omega)
      rw [show 30 + (i - 30) = i by omega] at this
      rw [this, extend, dif_neg (by omega)]
      congr 1
      omega

theorem hits_root {after : Memory} {file : CString} {root : Index} (h : IsRoot root) :
    hits after file root = true ↔ file.len = 0 := by
  rw [hits, if_pos h.etype, accepts, decide_eq_true_iff, strncmp_eq_zero]
  constructor
  · intro hall
    by_contra hlen
    have := hall 0 (by omega)
    rw [extend, dif_pos (by omega)] at this
    exact file.nonzero 0 (by omega) (this.trans h.name)
  · intro hlen i hi
    omega

theorem getLast?_examined {after : Memory} {file : CString} {es : List (Nat × Index)}
    (h : es.any fun e => hits after file e.2) :
    (examined after file es).getLast? = es.find? fun e => hits after file e.2 := by
  induction es with
  | nil => simp at h
  | cons e es ih =>
      rw [examined]
      cases hh : hits after file e.2 with
      | true => simp [hh]
      | false =>
          have hany : (es.any fun e => hits after file e.2) = true := by simpa [hh] using h
          have hne : examined after file es ≠ [] := by
            intro hnil
            have := ih hany
            rw [hnil, List.getLast?_nil, eq_comm, List.find?_eq_none] at this
            obtain ⟨e', he', hh'⟩ := List.any_eq_true.1 hany
            exact this e' he' hh'
          rw [if_neg (by simp), List.find?_cons_of_neg (by simp [hh]), ← ih hany]
          obtain ⟨x, xs, hx⟩ := List.exists_cons_of_ne_nil hne
          rw [hx, List.getLast?_cons_cons]

/-- A successful lookup finds the entry that was created last of those that the
comparison accepts. -/
theorem found_latest {after : Memory} {file : CString} {idx : Index} {l : List (Nat × Index)}
    (h : (found after file idx [] l.reverse).ret = 1) :
    ∃ k e, l[k]? = some e ∧ hits after file e.2 = true ∧
      (found after file idx [] l.reverse).seen.getLast? = some e ∧
      (found after file idx [] l.reverse).idx = e.2 ∧
      ∀ (j : Nat) (e' : Nat × Index), l[j]? = some e' → hits after file e'.2 = true → j ≤ k := by
  have hany : (l.reverse.any fun e => hits after file e.2) = true := by
    by_contra hno
    rw [found, if_neg hno] at h
    simp at h
  obtain ⟨e, he⟩ : ∃ e, l.reverse.find? (fun e => hits after file e.2) = some e := by
    refine Option.isSome_iff_exists.1 ?_
    rw [List.find?_isSome]
    exact List.any_eq_true.1 hany
  have hlast := getLast?_examined hany
  rw [he] at hlast
  obtain ⟨hh, as, bs, hl, hno⟩ := List.find?_eq_some_iff_append.1 he
  have hl' : l = bs.reverse ++ e :: as.reverse := by
    rw [← List.reverse_reverse l, hl]
    simp
  refine ⟨bs.length, e, ?_, hh, by simpa [found] using hlast, by simp [found, hlast], ?_⟩
  · rw [hl']
    simp
  · intro j e' hj hh'
    by_contra hlt
    rw [hl', List.getElem?_append_right (by simp; omega)] at hj
    obtain ⟨n, hn⟩ : ∃ n, j - bs.reverse.length = n + 1 :=
      ⟨j - bs.length - 1, by simp; omega⟩
    rw [hn, List.getElem?_cons_succ] at hj
    have hmem := List.mem_reverse.1 (List.mem_of_getElem? hj)
    simpa [hh'] using hno e' hmem

section

variable {nblk : Nat} {args : List Arg} {mk : Mk} {after : Memory} {file : CString} {idx : Index}

/-- The entries of an image of regular files in terms of the arguments. -/
theorem Made.hits_iff (h : Made nblk args mk) (after : Memory) (file : CString)
    (hreg : ∀ a ∈ args, ∃ content, a.stat = some (.regular content)) {k : Nat} {e : Nat × Index}
    (he : mk.initial[k + 1]? = some e) :
    ∃ a, args[k]? = some a ∧ (hits after file e.2 = true ↔ Accepted after file a.name) := by
  obtain ⟨x, hx, hd⟩ := h.entry he
  have hk := starts_getElem? hx
  refine ⟨x.2, hk, Sfs.hits_iff hd ?_⟩
  obtain ⟨content, hs⟩ := hreg x.2 (List.mem_of_getElem? hk)
  rcases hd.kind with ⟨hdir, -⟩ | ⟨_, -, ht, -⟩
  · rw [hs] at hdir
    simp at hdir
  · exact ht

theorem Made.index_unique (h : Made nblk args mk) {j k : Nat} {e : Nat × Index}
    (hj : mk.initial[j]? = some e) (hk : mk.initial[k]? = some e) : j = k := by
  obtain ⟨p, -, hw⟩ := h.walk
  have hpw : mk.initial.Pairwise fun e e' => e.1 < e'.1 := List.pairwise_reverse.1 hw.pairwise.2
  have hnd : mk.initial.Nodup := hpw.imp fun hlt heq => by
    rw [heq] at hlt
    exact lt_irrefl _ hlt
  obtain ⟨hj', hje⟩ := List.getElem?_eq_some_iff.1 hj
  obtain ⟨hk', hke⟩ := List.getElem?_eq_some_iff.1 hk
  exact (hnd.getElem_inj_iff).1 (hje.trans hke.symm)

theorem ret_eq_one_iff {l : List (Nat × Index)} :
    (found after file idx [] l.reverse).ret = 1 ↔ ∃ e ∈ l, hits after file e.2 = true := by
  rw [found]
  simp

theorem accepted_self {name : CString} (h : name.chars = file.chars) (ht : TailAgrees after file) :
    Accepted after file name :=
  ⟨h ▸ List.take_prefix _ _, ht⟩

/-- A lookup by a name that is not empty finds a file exactly if the comparison
accepts the name of one, and then it finds the last of them. -/
theorem Made.lookup (h : Made nblk args mk) (after : Memory) (idx : Index)
    (hreg : ∀ a ∈ args, ∃ content, a.stat = some (.regular content)) (hq : file.len ≠ 0) :
    ((found after file idx [] mk.initial.reverse).ret = 1 ↔
      ∃ a ∈ args, Accepted after file a.name) ∧
    ((found after file idx [] mk.initial.reverse).ret = 1 →
      ∃ k a e, args[k]? = some a ∧ mk.initial[k + 1]? = some e ∧ Accepted after file a.name ∧
        (found after file idx [] mk.initial.reverse).seen.getLast? = some e ∧
        (found after file idx [] mk.initial.reverse).idx = e.2 ∧
        ∀ (j : Nat) (b : Arg), args[j]? = some b → Accepted after file b.name → j ≤ k) := by
  have hret : (found after file idx [] mk.initial.reverse).ret = 1 →
      ∃ k a e, args[k]? = some a ∧ mk.initial[k + 1]? = some e ∧ Accepted after file a.name ∧
        (found after file idx [] mk.initial.reverse).seen.getLast? = some e ∧
        (found after file idx [] mk.initial.reverse).idx = e.2 ∧
        ∀ (j : Nat) (b : Arg), args[j]? = some b → Accepted after file b.name → j ≤ k := by
    intro hr
    obtain ⟨k, e, hk, hh, hlast, hidx, hmax⟩ := found_latest hr
    obtain ⟨root, es, hes, hroot, -⟩ := h.entries
    cases k with
    | zero =>
        rw [hes, List.getElem?_cons_zero, Option.some.injEq] at hk
        rw [← hk] at hh
        exact absurd ((hits_root hroot).1 hh) hq
    | succ k =>
        obtain ⟨a, ha, hacc⟩ := h.hits_iff after file hreg hk
        refine ⟨k, a, e, ha, hk, hacc.1 hh, hlast, hidx, fun j b hb hb' => ?_⟩
        obtain ⟨e', he'⟩ := h.initial_getElem? hb
        obtain ⟨b', hb₂, hacc'⟩ := h.hits_iff after file hreg he'
        cases hb.symm.trans hb₂
        have := hmax (j + 1) e' he' (hacc'.2 hb')
        omega
  refine ⟨⟨fun hr => ?_, ?_⟩, hret⟩
  · obtain ⟨k, a, e, ha, -, hacc, -⟩ := hret hr
    exact ⟨a, List.mem_of_getElem? ha, hacc⟩
  · rintro ⟨a, ha, hacc⟩
    obtain ⟨k, hk⟩ := List.mem_iff_getElem?.1 ha
    obtain ⟨e, he⟩ := h.initial_getElem? hk
    obtain ⟨a', ha', hacc'⟩ := h.hits_iff after file hreg he
    cases hk.symm.trans ha'
    exact ret_eq_one_iff.2 ⟨e, List.mem_of_getElem? he, hacc'.2 hacc⟩

/-- The name of length zero is found in every image, and no file has it. -/
theorem Made.lookup_empty (h : Made nblk args mk) (after : Memory) (idx : Index)
    (hreg : ∀ a ∈ args, ∃ content, a.stat = some (.regular content)) (hq : file.len = 0) :
    (found after file idx [] mk.initial.reverse).ret = 1 ∧
      ¬ ∃ a ∈ args, a.name.chars = file.chars := by
  obtain ⟨root, es, hes, hroot, -⟩ := h.entries
  refine ⟨ret_eq_one_iff.2 ⟨(1, root), by rw [hes]; simp, (hits_root hroot).2 hq⟩, ?_⟩
  rintro ⟨a, ha, heq⟩
  obtain ⟨content, hs⟩ := hreg a ha
  have hpos := (a.accepted (by simp [hs])).1
  have hlen := congrArg List.length heq
  rw [CString.length_chars, CString.length_chars] at hlen
  omega

theorem exact_found_iff (after : Memory) (idx : Index) (h : Made nblk args mk)
    (hreg : ∀ a ∈ args, ∃ content, a.stat = some (.regular content))
    (hdist : (args.map fun a => a.name.chars).Nodup) :
    Exact args mk file (found after file idx [] mk.initial.reverse) ↔ Clear args after file := by
  by_cases hq : file.len = 0
  · obtain ⟨hr, hno⟩ := h.lookup_empty after idx hreg hq
    exact ⟨fun hex => absurd (hex.1.1 hr) hno, fun hc => absurd hq hc.1⟩
  obtain ⟨hret, hfound⟩ := h.lookup after idx hreg hq
  constructor
  · rintro ⟨hiff, hentry⟩
    refine ⟨hq, fun k a ha hacc => ?_, fun hstored => ?_⟩
    · -- the file that is found has the name itself, and is the last one accepted
      have hr := hret.2 ⟨a, List.mem_of_getElem? ha, hacc⟩
      obtain ⟨b, hb, hname⟩ := hiff.1 hr
      obtain ⟨j, hj⟩ := List.mem_iff_getElem?.1 hb
      obtain ⟨e, he, hlast, -⟩ := hentry hr j b hj hname
      obtain ⟨k', a', e', ha', he', -, hlast', -, hmax⟩ := hfound hr
      cases hlast.symm.trans hlast'
      have hjk := h.index_unique he he'
      have hle := hmax k a ha hacc
      exact ⟨j, b, by omega, hj, hname⟩
    · obtain ⟨k, a, e, -, -, hacc, -⟩ := hfound (hiff.2 hstored)
      exact hacc.2
  · rintro ⟨-, hlater, htail⟩
    have hself : (∃ a ∈ args, Accepted after file a.name) ↔
        ∃ a ∈ args, a.name.chars = file.chars := by
      constructor
      · rintro ⟨a, ha, hacc⟩
        obtain ⟨k, hk⟩ := List.mem_iff_getElem?.1 ha
        obtain ⟨j, b, -, hj, hname⟩ := hlater k a hk hacc
        exact ⟨b, List.mem_of_getElem? hj, hname⟩
      · rintro ⟨a, ha, hname⟩
        exact ⟨a, ha, accepted_self hname (htail ⟨a, ha, hname⟩)⟩
    refine ⟨hret.trans hself, fun hr k a hk hname => ?_⟩
    obtain ⟨k', a', e, ha', he, hacc, hlast, hidx, hmax⟩ := hfound hr
    have hle := hmax k a hk (accepted_self hname (htail ⟨a, List.mem_of_getElem? hk, hname⟩))
    obtain ⟨j, b, hkj, hj, hname'⟩ := hlater k' a' ha' hacc
    have hjk := hmax j b hj (accepted_self hname' (htail ⟨b, List.mem_of_getElem? hj, hname'⟩))
    have hkj' : k = j := by
      obtain ⟨hk₁, hk₂⟩ := List.getElem?_eq_some_iff.1 hk
      obtain ⟨hj₁, hj₂⟩ := List.getElem?_eq_some_iff.1 hj
      have hk₃ : k < (args.map fun a => a.name.chars).length := by simpa using hk₁
      have hj₃ : j < (args.map fun a => a.name.chars).length := by simpa using hj₁
      have heq : (args.map fun a => a.name.chars)[k] = (args.map fun a => a.name.chars)[j] := by
        rw [List.getElem_map, List.getElem_map, hk₂, hj₂, hname, hname']
      exact hdist.getElem_inj_iff.1 heq
    have hkk : k = k' := by omega
    subst hkk
    exact ⟨e, he, hlast, hidx⟩

/-- A lookup in an image of regular files with distinct names is exact if and only
if the name is clear of the names that the comparison also accepts. -/
theorem sfsFindIndex_exact_iff (hn : 512 * nblk < 4294967296) (h : mkSfs nblk args = some mk)
    (hreg : ∀ a ∈ args, ∃ content, a.stat = some (.regular content))
    (hdist : (args.map fun a => a.name.chars).Nodup) :
    Total (quietly sfsDev) (imageDisk nblk mk.img)
        (mount >>= fun s => sfsFindIndex s after file idx) (fun r _ => Exact args mk file r) ↔
      Clear args after file := by
  have hm := mkSfs_made hn h
  have hgives : Gives (quietly sfsDev) (imageDisk nblk mk.img)
      (mount >>= fun s => sfsFindIndex s after file idx)
      (found after file idx [] mk.initial.reverse) (imageDisk nblk mk.img) :=
    (gives_mount hn hm).bind (gives_sfsFindIndex hn hm after file idx)
  rw [← exact_found_iff after idx hm hreg hdist]
  constructor
  · intro htotal
    obtain ⟨hok, hview⟩ := quiet_bootCache sfsDev (imageDisk nblk mk.img)
    obtain ⟨r, c, hr, -, hex⟩ := htotal _ hok hview
    obtain ⟨-, rfl, -⟩ := hgives.of_eq_ok hok hview hr
    exact hex
  · intro hex
    refine hgives.mono ?_
    rintro r v ⟨rfl, -⟩
    exact hex

end

/-- The names `ab` and `a`. -/
def nameAb : CString := tiny.name

def nameA : CString := .ofList [0x61] (by decide) (by simp)

theorem tiny_regular : ∀ a ∈ [tiny], ∃ content, a.stat = some (.regular content) := by
  intro a ha
  rw [List.mem_singleton.1 ha]
  exact ⟨_, rfl⟩

theorem clear_tiny : Clear [tiny] zeros nameAb := by
  refine ⟨by decide, fun k a hk _ => ⟨k, a, le_rfl, hk, ?_⟩, fun _ i hi => ?_⟩
  · rw [List.mem_singleton.1 (List.mem_of_getElem? hk)]
    rfl
  · simp [nameAb, tiny, CString.ofList] at hi
    omega

/-- The image with the file `ab`: the lookup by `ab` is exact. -/
theorem tiny_lookup_exact :
    ∃ mk, mkSfs 4 [tiny] = some mk ∧
      Total (quietly sfsDev) (imageDisk 4 mk.img)
        (mount >>= fun s => sfsFindIndex s zeros nameAb fun _ => 0)
        fun r _ => Exact [tiny] mk nameAb r := by
  obtain ⟨mk, hmk⟩ := mkSfs_tiny
  exact ⟨mk, hmk, (sfsFindIndex_exact_iff (by decide) hmk tiny_regular (by simp)).2 clear_tiny⟩

/-- The same image: the lookup by `a` finds the file `ab`, and no file has the
name `a`. -/
theorem tiny_lookup_inexact :
    ∃ mk, mkSfs 4 [tiny] = some mk ∧
      Gives (quietly sfsDev) (imageDisk 4 mk.img)
        (mount >>= fun s => sfsFindIndex s zeros nameA fun _ => 0)
        (found zeros nameA (fun _ => 0) [] mk.initial.reverse) (imageDisk 4 mk.img) ∧
      (found zeros nameA (fun _ => 0) [] mk.initial.reverse).ret = 1 ∧
      (∀ a ∈ [tiny], a.name.chars ≠ nameA.chars) ∧
      ¬ Exact [tiny] mk nameA (found zeros nameA (fun _ => 0) [] mk.initial.reverse) := by
  obtain ⟨mk, hmk⟩ := mkSfs_tiny
  have hm := mkSfs_made (by decide) hmk
  have hret := ((@Made.lookup _ _ _ nameA hm zeros (fun _ => 0) tiny_regular
    (by decide)).1).2 ⟨tiny, by simp, ⟨[0x62], rfl⟩, fun i hi => absurd hi ?_⟩
  · have hno : ∀ a ∈ [tiny], a.name.chars ≠ nameA.chars := by
      intro a ha
      rw [List.mem_singleton.1 ha]
      decide
    refine ⟨mk, hmk, (gives_mount (by decide) hm).bind
      (gives_sfsFindIndex (by decide) hm zeros nameA fun _ => 0), hret, hno, ?_⟩
    rintro ⟨hiff, -⟩
    obtain ⟨a, ha, hname⟩ := hiff.1 hret
    exact hno a ha hname
  · simp [nameA, CString.ofList]

end Sfs

end Chunix
