import Chunix.Sfs.RoundTrip

/-!
# The scan of the index on any image

`sfs_find_index` takes its steps from the bytes that it reads. Over a disk with any
contents the entries that it comes to are a function of these contents. The reads stay
inside the index as long as no entry on the way has more continuation entries than
there are elements below it. The scan ends at the first entry that is neither a file
nor a directory, so that it misses whatever lies below an unused, unusable or deleted
entry.
-/

namespace Chunix

namespace Sfs

open Machine Act Fs

/-- An entry that the scan does not stop at. -/
def isEnt (idx : Index) : Bool := etype idx = iatDirEnt ∨ etype idx = iatFileEnt

/-- The entries that the scan from `p` downwards comes to. -/
def visited (ent : Nat → Index) (after : Memory) (file : CString) (p : Nat) :
    List (Nat × Index) :=
  if 0 < p then
    (p, ent p) ::
      if isEnt (ent p) && !hits after file (ent p) then
        visited ent after file (p - (ne (ent p) + 1))
      else []
  else []
termination_by p

/-- What the scan returns when it comes to the entries `es`. -/
def scanned (after : Memory) (file : CString) (idx : Index) (seen es : List (Nat × Index)) :
    Found :=
  ⟨if es.any fun e => isEnt e.2 && hits after file e.2 then 1 else 0,
    (es.getLast?.map Prod.snd).getD idx, seen ++ es⟩

section

variable {ent : Nat → Index} {after : Memory} {file : CString} {idx : Index}
  {seen es : List (Nat × Index)} {e : Nat × Index}

theorem isEnt_eq_true : isEnt idx = true ↔ etype idx = iatDirEnt ∨ etype idx = iatFileEnt :=
  decide_eq_true_iff

theorem isEnt_eq_false : isEnt idx = false ↔ etype idx ≠ iatDirEnt ∧ etype idx ≠ iatFileEnt := by
  rw [isEnt, decide_eq_false_iff_not, not_or]

theorem visited_of_pos {p : Nat} (h : 0 < p) :
    visited ent after file p = (p, ent p) ::
      if isEnt (ent p) && !hits after file (ent p) then
        visited ent after file (p - (ne (ent p) + 1))
      else [] := by
  rw [visited, if_pos h]

theorem visited_of_not_pos {p : Nat} (h : ¬ 0 < p) : visited ent after file p = [] := by
  rw [visited, if_neg h]

theorem scanned_nil : scanned after file idx seen [] = ⟨0, idx, seen⟩ := by simp [scanned]

theorem scanned_singleton :
    scanned after file idx seen [e] =
      ⟨if isEnt e.2 && hits after file e.2 then 1 else 0, e.2, seen ++ [e]⟩ := by
  simp [scanned]

theorem scanned_cons (h : (isEnt e.2 && hits after file e.2) = false) :
    scanned after file idx seen (e :: es) = scanned after file e.2 (seen ++ [e]) es := by
  simp only [scanned, h, List.any_cons, Bool.false_or, List.append_assoc, List.singleton_append,
    Found.mk.injEq, true_and, and_true]
  cases es with
  | nil => rfl
  | cons e' es' =>
      rw [List.getLast?_cons_cons]
      simp [List.getLast?_eq_getLast_of_ne_nil]

end

/-- `readConts` with another function in the place of `read_index`. -/
def readContsBy (read : Nat → Act Cache Index) (nindex : Int) : Nat → Act Cache Unit
  | 0 => pure ()
  | ne + 1 => do
      let _ ← read (word (nindex + (ne + 1)))
      readContsBy read nindex ne

def examineBy (read : Nat → Act Cache Index) (after : Memory) (file : CString)
    (nameAt space : Nat) (nindex : Int) (idx : Index) : Act Cache Bool :=
  if ne idx = 0 ∧ file.len ≤ space then return accepts after file nameAt idx
  else do
    readContsBy read nindex (ne idx)
    return accepts after file nameAt idx

def findLoopBy (read : Nat → Act Cache Index) (after : Memory) (file : CString) (nindex : Int)
    (idx : Index) (seen : List (Nat × Index)) : Act Cache Found :=
  if 0 < nindex then do
    let idx ← read (word nindex)
    let seen := seen ++ [(word nindex, idx)]
    if etype idx = iatDirEnt then do
      let ret ← examineBy read after file 10 54 (nindex - (ne idx + 1)) idx
      if ret then return ⟨1, idx, seen⟩
      else findLoopBy read after file (nindex - (ne idx + 1)) idx seen
    else if etype idx = iatFileEnt then do
      let ret ← examineBy read after file 34 30 (nindex - (ne idx + 1)) idx
      if ret then return ⟨1, idx, seen⟩
      else findLoopBy read after file (nindex - (ne idx + 1)) idx seen
    else return ⟨0, idx, seen⟩
  else return ⟨0, idx, seen⟩
termination_by nindex.toNat

/-- The place of the name in an entry of a file or a directory. -/
def nameAt (idx : Index) : Nat := if etype idx = iatDirEnt then 10 else 34

/-- The room for the name. -/
def space (idx : Index) : Nat := if etype idx = iatDirEnt then 54 else 30

theorem accepts_nameAt (after : Memory) (file : CString) (idx : Index) :
    accepts after file (nameAt idx) idx = hits after file idx := by
  rw [hits, nameAt]
  split <;> rfl

/-- One round of the scan, with the branches for a file and a directory in one. -/
theorem findLoopBy_of_pos {read : Nat → Act Cache Index} {after : Memory} {file : CString}
    {nindex : Int} {idx : Index} {seen : List (Nat × Index)} (hpos : 0 < nindex) :
    findLoopBy read after file nindex idx seen = (do
      let idx ← read (word nindex)
      if isEnt idx then do
        let ret ← examineBy read after file (nameAt idx) (space idx) (nindex - (ne idx + 1)) idx
        if ret then return ⟨1, idx, seen ++ [(word nindex, idx)]⟩
        else findLoopBy read after file (nindex - (ne idx + 1)) idx (seen ++ [(word nindex, idx)])
      else return ⟨0, idx, seen ++ [(word nindex, idx)]⟩) := by
  rw [findLoopBy, if_pos hpos]
  congr 1
  funext idx'
  by_cases hd : etype idx' = iatDirEnt
  · rw [if_pos hd, if_pos (isEnt_eq_true.2 (Or.inl hd)), nameAt, space, if_pos hd, if_pos hd]
  · by_cases hf : etype idx' = iatFileEnt
    · rw [if_neg hd, if_pos hf, if_pos (isEnt_eq_true.2 (Or.inr hf)), nameAt, space, if_neg hd,
        if_neg hd]
    · rw [if_neg hd, if_neg hf, isEnt_eq_false.2 ⟨hd, hf⟩, if_neg Bool.false_ne_true]

theorem findLoopBy_of_not_pos {read : Nat → Act Cache Index} {after : Memory} {file : CString}
    {nindex : Int} {idx : Index} {seen : List (Nat × Index)} (hpos : ¬ 0 < nindex) :
    findLoopBy read after file nindex idx seen = pure ⟨0, idx, seen⟩ := by
  rw [findLoopBy, if_neg hpos]

/-- `sfs_find_index` with another function in the place of `read_index`. -/
def sfsFindIndexBy (read : Nat → Act Cache Index) (s : Super) (after : Memory) (file : CString)
    (idx : Index) : Act Cache Found :=
  findLoopBy read after file (int32 (u32 (s.iaNum + 4294967295))) idx []

section

variable {s : Super} {after : Memory} {file : CString}

theorem readContsBy_readIndex (nindex : Int) (k : Nat) :
    readContsBy (readIndex s) nindex k = readConts s nindex k := by
  induction k with
  | zero => rfl
  | succ k ih => rw [readContsBy, readConts, ih]

theorem examineBy_readIndex (nameAt space : Nat) (nindex : Int) (idx : Index) :
    examineBy (readIndex s) after file nameAt space nindex idx =
      examine s after file nameAt space nindex idx := by
  rw [examineBy, examine, readContsBy_readIndex]

theorem findLoopBy_readIndex (nindex : Int) (idx : Index) (seen : List (Nat × Index)) :
    findLoopBy (readIndex s) after file nindex idx seen = findLoop s after file nindex idx seen := by
  induction hm : nindex.toNat using Nat.strong_induction_on generalizing nindex idx seen with
  | _ m ih =>
      rw [findLoopBy, findLoop]
      simp only [examineBy_readIndex]
      split_ifs with hpos
      · congr 1
        funext idx'
        rw [ih _ (by omega) (nindex - (ne idx' + 1)) idx' _ rfl]
      · rfl

theorem sfsFindIndexBy_readIndex (idx : Index) :
    sfsFindIndexBy (readIndex s) s after file idx = sfsFindIndex s after file idx :=
  findLoopBy_readIndex _ _ _

end

section

variable {after : Memory} {file : CString} {ent : Nat → Index} {d : Disk}
  {read : Nat → Act Cache Index} {n : Nat}
  (hread : ∀ sec, sec < n → Gives (quietly sfsDev) d (read sec) (ent sec) d)

include hread

/-- Continuation entries that lie inside the index. -/
theorem gives_readContsBy {nindex : Int} {k : Nat} (hlow : -1 ≤ nindex) (hhigh : nindex + k < n)
    (hn : n ≤ 2147483648) : Gives (quietly sfsDev) d (readContsBy read nindex k) () d := by
  induction k with
  | zero => exact gives_pure ()
  | succ k ih =>
      have hw : word (nindex + (k + 1)) < n := by
        unfold word
        omega
      exact (hread _ hw).bind (ih (by omega))

theorem gives_examineBy {nameAt space : Nat} {nindex : Int} {idx : Index} (hlow : -1 ≤ nindex)
    (hhigh : nindex + ne idx < n) (hn : n ≤ 2147483648) :
    Gives (quietly sfsDev) d (examineBy read after file nameAt space nindex idx)
      (accepts after file nameAt idx) d := by
  rw [examineBy]
  split
  · exact gives_pure _
  · exact (gives_readContsBy hread hlow hhigh hn).bind (gives_pure _)

/-- The scan of an index in which every read stays inside. -/
theorem gives_findLoopBy {nindex : Int} (hlt : nindex < n) (hn : n ≤ 2147483648)
    (hin : ∀ e ∈ visited ent after file nindex.toNat, isEnt e.2 = true → ne e.2 ≤ e.1)
    (idx : Index) (seen : List (Nat × Index)) :
    Gives (quietly sfsDev) d (findLoopBy read after file nindex idx seen)
      (scanned after file idx seen (visited ent after file nindex.toNat)) d := by
  induction hm : nindex.toNat using Nat.strong_induction_on generalizing nindex idx seen with
  | _ m ih =>
      by_cases hpos : 0 < nindex
      · have hword : word nindex = m := by
          unfold word
          omega
        rw [hm, visited_of_pos (by omega)] at hin
        rw [findLoopBy_of_pos hpos, hword, visited_of_pos (by omega)]
        refine (hread m (by omega)).bind ?_
        cases hent : isEnt (ent m) with
        | false =>
            rw [if_neg Bool.false_ne_true, Bool.false_and, if_neg Bool.false_ne_true,
              scanned_singleton, hent]
            exact gives_pure _
        | true =>
            have hne : ne (ent m) ≤ m := hin _ List.mem_cons_self hent
            rw [if_pos rfl, Bool.true_and]
            refine (gives_examineBy hread (by omega) (by omega) hn).bind ?_
            rw [accepts_nameAt]
            cases hh : hits after file (ent m) with
            | true =>
                rw [if_pos rfl, Bool.not_true, if_neg Bool.false_ne_true, scanned_singleton, hent,
                  hh]
                exact gives_pure _
            | false =>
                have hnext : (nindex - (ne (ent m) + 1)).toNat = m - (ne (ent m) + 1) := by omega
                rw [hent, hh, Bool.not_false, Bool.and_true, if_pos rfl] at hin
                rw [if_neg Bool.false_ne_true, Bool.not_false, if_pos rfl,
                  scanned_cons (by rw [hh, Bool.and_false])]
                refine ih _ (by omega) (by omega) (fun e he => ?_) (ent m) _ hnext
                rw [hnext] at he
                exact hin e (List.mem_cons_of_mem _ he)
      · rw [findLoopBy_of_not_pos hpos, visited_of_not_pos (by omega), scanned_nil]
        exact gives_pure _

end

section

variable {s : Super} {d : Disk}

/-- The read that is not allowed. -/
def outside : Stop := .panic "read_index: outside"

/-- The element `sec` of the index of a disk. -/
def entryAt (s : Super) (d : Disk) (sec : Nat) : Index :=
  slice 64 (extend (d.sector (s.nblk - sec / 8 - 1)) zeros) (512 - (sec % 8 + 1) * 64)

/-- The index lies on the disk. -/
structure Geometry (s : Super) (d : Disk) : Prop where
  nblk : s.nblk < 4294967296
  iaNum : s.iaNum < 4294967296
  size : s.nblk ≤ d.size
  index : s.iaNum * 64 ≤ s.nblk * 512

variable (hg : Geometry s d)

include hg

theorem Geometry.gives_readIndex {sec : Nat} (h : sec < s.iaNum) :
    Gives (quietly sfsDev) d (readIndex s sec) (entryAt s d sec) d := by
  have hnblk := hg.nblk
  have hsize := hg.size
  have hindex := hg.index
  have hb : u32 (s.nblk + 4294967296 - sec / 8 - 1) = s.nblk - sec / 8 - 1 := by
    unfold u32
    omega
  rw [readIndex, hb]
  exact (@gives_readSector sfsDev (by decide) rfl d _ (by omega)).bind (gives_pure _)

end

def iatVolumeId : Nat := 0x01

def iatStartMark : Nat := 0x02

def iatDelDir : Nat := 0x19

def iatDelFile : Nat := 0x1A

/-- The first of the types of continuation entries. -/
def iatContEnt : Nat := 0x20

/-- An entry that continues no other one, with the number of its continuation entries. Files
and directories have them, deleted ones too. The other entries are unused or unusable,
and a type that the format does not list counts as unused. -/
def Initial (idx : Index) (k : Nat) : Prop :=
  if etype idx ∈ [iatDirEnt, iatFileEnt, iatDelDir, iatDelFile] then k = ne idx
  else etype idx < iatContEnt ∧ etype idx ≠ iatVolumeId ∧ etype idx ≠ iatStartMark ∧ k = 0

instance (idx : Index) (k : Nat) : Decidable (Initial idx k) := by
  unfold Initial
  infer_instance

/-- The elements from `p` down to the volume identifier, with the entries `es` that continue
no other one. -/
inductive Area (ent : Nat → Index) : Nat → List (Nat × Index) → Prop
  | nil (volume : etype (ent 0) = iatVolumeId) : Area ent 0 []
  | cons {p k : Nat} {es : List (Nat × Index)} (rest : Area ent p es)
      (initial : Initial (ent (p + k + 1)) k)
      (conts : ∀ i, p < i → i ≤ p + k → iatContEnt ≤ etype (ent i)) :
      Area ent (p + k + 1) ((p + k + 1, ent (p + k + 1)) :: es)

/-- A well-formed index area of `iaNum` elements behind the marker. -/
structure WellFormed (ent : Nat → Index) (iaNum : Nat) (es : List (Nat × Index)) : Prop where
  pos : 0 < iaNum
  marker : etype (ent iaNum) = iatStartMark
  area : Area ent (iaNum - 1) es

section

variable {ent : Nat → Index} {after : Memory} {file : CString} {p : Nat}
  {es : List (Nat × Index)}

theorem Initial.eq_ne {idx : Index} {k : Nat} (h : Initial idx k) (he : isEnt idx = true) :
    k = ne idx := by
  rw [Initial, if_pos] at h
  · exact h
  · rcases isEnt_eq_true.1 he with hd | hf
    · simp [hd]
    · simp [hf]

theorem Area.place_le (h : Area ent p es) : ∀ e ∈ es, e.1 ≤ p := by
  induction h with
  | nil => simp
  | cons rest initial conts ih =>
      refine List.forall_mem_cons.2 ⟨le_rfl, fun e he => ?_⟩
      have := ih e he
      omega

/-- No entry of a well-formed area has too many continuation entries. -/
theorem Area.inBounds (h : Area ent p es) :
    ∀ e ∈ visited ent after file p, isEnt e.2 = true → ne e.2 ≤ e.1 := by
  induction h with
  | nil =>
      rw [visited_of_not_pos (by omega)]
      simp
  | @cons p k es rest initial conts ih =>
      rw [visited_of_pos (by omega)]
      refine List.forall_mem_cons.2 ⟨fun hent => ?_, fun e he => ?_⟩
      · have := initial.eq_ne hent
        dsimp only
        omega
      · split_ifs at he with hgo
        · rw [Bool.and_eq_true] at hgo
          rw [← initial.eq_ne hgo.1, show p + k + 1 - (k + 1) = p by omega] at he
          exact ih e he
        · simp at he

/-- Without a hit, the scan comes to every file and directory if and only if no other entry
stands before one of them. -/
theorem Area.forall_mem_visited_iff (h : Area ent p es)
    (hno : ∀ e ∈ es, isEnt e.2 = true → hits after file e.2 = false) :
    (∀ e ∈ es, isEnt e.2 = true → e ∈ visited ent after file p) ↔
      es.Pairwise fun e e' => isEnt e'.2 = true → isEnt e.2 = true := by
  induction h with
  | nil => simp
  | @cons p k es rest initial conts ih =>
      rw [List.forall_mem_cons] at hno
      have hne : ∀ e ∈ es, e ≠ (p + k + 1, ent (p + k + 1)) := by
        rintro e he rfl
        have := rest.place_le _ he
        dsimp only at this
        omega
      rw [visited_of_pos (by omega), List.pairwise_cons, List.forall_mem_cons]
      cases hent : isEnt (ent (p + k + 1)) with
      | true =>
          rw [hno.1 hent, ← initial.eq_ne hent, show p + k + 1 - (k + 1) = p by omega, ← ih hno.2]
          simp only [Bool.not_false, Bool.and_true, if_true, List.mem_cons, true_or, implies_true,
            true_and]
          refine forall₂_congr fun e he => ?_
          rw [or_iff_right (hne e he)]
      | false =>
          rw [Bool.false_and, if_neg Bool.false_ne_true]
          constructor
          · rintro ⟨-, hall⟩
            have hnone : ∀ e ∈ es, isEnt e.2 ≠ true := fun e he hent' =>
              hne e he (List.mem_singleton.1 (hall e he hent'))
            exact ⟨fun e he hent' => absurd hent' (hnone e he),
              List.pairwise_of_forall_mem_list fun a _ b hb hb' => absurd hb' (hnone b hb)⟩
          · rintro ⟨hall, -⟩
            exact ⟨fun h => absurd h Bool.false_ne_true,
              fun e he hent' => absurd (hall e he hent') Bool.false_ne_true⟩

/-- The scan of a well-formed area. -/
theorem WellFormed.total_sfsFindIndex {s : Super} {d : Disk} (hg : Geometry s d)
    (hw : WellFormed (entryAt s d) s.iaNum es) (hia : s.iaNum ≤ 2147483648) (idx : Index) :
    Total (quietly sfsDev) d (sfsFindIndex s after file idx) fun r v =>
      v = d ∧ r.seen = visited (entryAt s d) after file (s.iaNum - 1) := by
  have hpos := hw.pos
  have hplace : int32 (u32 (s.iaNum + 4294967295)) = ((s.iaNum - 1 : Nat) : Int) := by
    have hword : u32 (s.iaNum + 4294967295) = s.iaNum - 1 := by
      unfold u32
      omega
    rw [hword, int32, if_pos (by omega)]
  rw [← sfsFindIndexBy_readIndex, sfsFindIndexBy, hplace]
  refine (gives_findLoopBy (fun _ h => hg.gives_readIndex h) (by omega) hia
    (by rw [Int.toNat_natCast]; exact hw.area.inBounds) idx []).mono ?_
  rintro r v ⟨rfl, rfl⟩
  exact ⟨rfl, List.nil_append _⟩

/-- The search of a well-formed area for a name that it does not find examines every file and
every directory if and only if there are none, or the number of elements is an `int` and no
entry of another type stands before a file or a directory. -/
theorem sfsFindIndex_examines_iff {s : Super} {d : Disk} (hg : Geometry s d)
    (hw : WellFormed (entryAt s d) s.iaNum es)
    (hno : ∀ e ∈ es, isEnt e.2 = true → hits after file e.2 = false) (idx : Index) :
    Total (quietly sfsDev) d (sfsFindIndex s after file idx) fun r v =>
      v = d ∧ ((∀ e ∈ es, isEnt e.2 = true → e ∈ r.seen) ↔
        (∀ e ∈ es, isEnt e.2 = false) ∨ (s.iaNum ≤ 2147483648 ∧
          es.Pairwise fun e e' => isEnt e'.2 = true → isEnt e.2 = true)) := by
  by_cases hia : s.iaNum ≤ 2147483648
  · refine (hw.total_sfsFindIndex hg hia idx).mono ?_
    rintro r v ⟨rfl, hseen⟩
    rw [hseen, hw.area.forall_mem_visited_iff hno]
    refine ⟨rfl, fun h => Or.inr ⟨hia, h⟩, ?_⟩
    rintro (hnone | h)
    · exact List.pairwise_of_forall_mem_list fun a _ b hb hb' => absurd hb' (by simp [hnone b hb])
    · exact h.2
  · have hia' := hg.iaNum
    have hneg : ¬ 0 < int32 (u32 (s.iaNum + 4294967295)) := by
      unfold int32 u32
      split_ifs <;> omega
    rw [← sfsFindIndexBy_readIndex, sfsFindIndexBy, findLoopBy_of_not_pos hneg]
    refine (gives_pure _).mono ?_
    rintro r v ⟨rfl, rfl⟩
    refine ⟨rfl, ?_⟩
    simp [hia]

end

/-- An index of three elements behind the marker: a file, and above it an entry of the type
`t`. -/
def mixed (t : UInt8) : Disk :=
  ⟨fun _ i => if i = 256 then 0x02 else if i = 320 then t else if i = 384 then 0x12 else
    if i = 448 then 0x01 else 0, 2⟩

/-- The superblock of that disk. -/
def mixedSuper : Super := ⟨2, 1, 0, 3, 2⟩

theorem geometry_mixed (t : UInt8) : Geometry mixedSuper (mixed t) :=
  ⟨by decide, by decide, le_rfl, by decide⟩

theorem wellFormed_mixed {t : UInt8} (h : t = 0x12 ∨ t = 0x10) :
    WellFormed (entryAt mixedSuper (mixed t)) 3
      [(2, entryAt mixedSuper (mixed t) 2), (1, entryAt mixedSuper (mixed t) 1)] := by
  rcases h with rfl | rfl
  · exact ⟨by decide, by decide, .cons (k := 0) (.cons (k := 0) (.nil (by decide)) (by decide)
      (by omega)) (by decide) (by omega)⟩
  · exact ⟨by decide, by decide, .cons (k := 0) (.cons (k := 0) (.nil (by decide)) (by decide)
      (by omega)) (by decide) (by omega)⟩

/-- Two files are both examined. -/
theorem mixed_file_examined :
    ∃ r c, sfsFindIndex mixedSuper zeros tiny.name (fun _ => 0) (bootCache (mixed 0x12)) =
      .ok (r, c) ∧ (1, entryAt mixedSuper (mixed 0x12) 1) ∈ r.seen := by
  obtain ⟨hok, hview⟩ := quiet_bootCache sfsDev (mixed 0x12)
  obtain ⟨r, c, hr, -, -, hiff⟩ := @sfsFindIndex_examines_iff zeros tiny.name _ mixedSuper
    (mixed 0x12) (geometry_mixed 0x12) (wellFormed_mixed (Or.inl rfl)) (by decide +kernel)
    (fun _ => 0) _ hok hview
  exact ⟨r, c, hr, hiff.2 (Or.inr ⟨by decide, by decide⟩) _ (by simp) (by decide)⟩

/-- A file below an unused entry is not examined. -/
theorem mixed_unused_missed :
    WellFormed (entryAt mixedSuper (mixed 0x10)) 3
      [(2, entryAt mixedSuper (mixed 0x10) 2), (1, entryAt mixedSuper (mixed 0x10) 1)] ∧
    etype (entryAt mixedSuper (mixed 0x10) 1) = iatFileEnt ∧
    ∃ r c, sfsFindIndex mixedSuper zeros tiny.name (fun _ => 0) (bootCache (mixed 0x10)) =
      .ok (r, c) ∧ (1, entryAt mixedSuper (mixed 0x10) 1) ∉ r.seen := by
  have hw := wellFormed_mixed (t := 0x10) (Or.inr rfl)
  obtain ⟨hok, hview⟩ := quiet_bootCache sfsDev (mixed 0x10)
  obtain ⟨r, c, hr, -, -, hseen⟩ := @WellFormed.total_sfsFindIndex zeros tiny.name _ mixedSuper
    (mixed 0x10) (geometry_mixed 0x10) hw (by decide) (fun _ => 0) _ hok hview
  refine ⟨hw, by decide, r, c, hr, ?_⟩
  have hstop : isEnt (entryAt mixedSuper (mixed 0x10) (mixedSuper.iaNum - 1)) = false := by decide
  rw [hseen, visited_of_pos (by decide), hstop, Bool.false_and, if_neg Bool.false_ne_true,
    List.mem_singleton]
  exact fun h => absurd (congrArg Prod.fst h) (by decide)

end Sfs

end Chunix
