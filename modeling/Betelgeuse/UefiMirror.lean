/-
The mirror of physical memory (`MAPPING_TYPE_MAP_ALL`).

The loop counts the entries of the PML4 that are in use, and copies as many entries
from the front of the PML4 to its end.  So the mirror is faithful if the entries in use
are the first ones, and if they leave room for the copies (`MirrorCondition`): with
gaps, entries that are not in use are copied and marked present.  The lower half may
not be full either: then the copies begin at its last entry, and the mirror lies in
addresses that are not canonical.
-/
import Betelgeuse.PageOffsets
import Betelgeuse.UefiStart

open PageTree RangeLoop

namespace Betelgeuse

/-- The entry that the loop makes of the entry `w`. -/
def mirrorEntry (w : UInt64) : UInt64 := w &&& addrMask ||| (presentFlag ||| writableFlag)

theorem present_mirrorEntry (w : UInt64) : mirrorEntry w &&& presentFlag ≠ 0 :=
  (decode_eq_table.mp (decode_mirrored (n := 3) (by decide) w)).1

theorem entryFrame_mirrorEntry (w : UInt64) : entryFrame (mirrorEntry w) = entryFrame w :=
  (decode_eq_table.mp (decode_mirrored (n := 3) (by decide) w)).2.2.2

/-! ### The words of the mirror -/

section Words

variable {mem : UInt64 → UInt64} {root f : Frame} {count m : ℕ} {k : Fin 512}

theorem mirrorIndex_val (hm : m < count) : (mirrorIndex count m hm).val = m + 511 - count := rfl

/-- The PML4 after `m` rounds of the loop, as long as no round has reached an entry that
is still to be copied. -/
theorem mirror_rounds (hcount : count ≤ 256) (hm : m ≤ count) (hm' : m ≤ 255) :
    (∀ i (hi : i < m),
      word ((List.range m).foldl (mirrorStep root.addr (511 - UInt64.ofNat count)) mem) root
        (mirrorIndex count i (by omega)) = mirrorEntry (word mem root ⟨i, by omega⟩)) ∧
      ∀ f k, (f = root → k.val < 511 - count ∨ 511 - count + m ≤ k.val) →
        word ((List.range m).foldl (mirrorStep root.addr (511 - UInt64.ofNat count)) mem) f k =
          word mem f k := by
  refine foldl_range_induction
    (fun m' (mem' : UInt64 → UInt64) =>
      (∀ i (hi : i < m') (hm : m' ≤ m), word mem' root (mirrorIndex count i (by omega)) =
        mirrorEntry (word mem root ⟨i, by omega⟩)) ∧
        ∀ f k, (f = root → k.val < 511 - count ∨ 511 - count + m' ≤ k.val) →
          word mem' f k = word mem f k)
    ⟨fun i hi => absurd hi (Nat.not_lt_zero i), fun f k _ => rfl⟩ ?_ |>.imp
      (fun h i hi => h i hi le_rfl) id
  rintro j mem' hj ⟨hdone, hoff⟩
  have hword := @word_mirrorStep mem' root count j (by omega) (by omega)
  constructor
  -- the entries that have been copied are those of the earlier rounds and this one
  · intro i hi hle
    rw [hword]
    rcases Nat.lt_succ_iff_lt_or_eq.mp hi with hlt | rfl
    · have hne : mirrorIndex count i (by omega) ≠ mirrorIndex count j (by omega) := by
        intro heq
        have hval := congrArg Fin.val heq
        rw [mirrorIndex_val, mirrorIndex_val] at hval
        omega
      rw [if_neg fun h => hne h.2]
      exact hdone i hlt (by omega)
    · rw [if_pos ⟨rfl, rfl⟩, hoff root _ fun _ => .inl (by dsimp only; omega)]
      rfl
  -- an entry that has not been reached stays
  · intro f k hk
    have hne : ¬ (f = root ∧ k = mirrorIndex count j (by omega)) := by
      rintro ⟨rfl, rfl⟩
      have hval := hk rfl
      rw [mirrorIndex_val] at hval
      omega
    rw [hword, if_neg hne]
    exact hoff f k fun hf => (hk hf).imp id fun h => by omega

/-- The copies, and the entries that are left as they are, if the lower half is not
full. -/
theorem mirror_spec (mem : UInt64 → UInt64) (root : Frame) (hcount : count ≤ 255) :
    (∀ i (hi : i < count),
      word (mirror root.addr (511 - UInt64.ofNat count) count mem) root
        (mirrorIndex count i hi) = mirrorEntry (word mem root ⟨i, by omega⟩)) ∧
      ∀ f k, (f = root → k.val < 511 - count ∨ 511 ≤ k.val) →
        word (mirror root.addr (511 - UInt64.ofNat count) count mem) f k = word mem f k := by
  obtain ⟨hdone, hoff⟩ := @mirror_rounds mem root count count (by omega) le_rfl hcount
  exact ⟨hdone, fun f k hk => hoff f k fun hf => (hk hf).imp id fun h => by omega⟩

/-- If the lower half is full, then the first copy takes the place of its last entry, and
the last round copies that copy. -/
theorem mirror_full (mem : UInt64 → UInt64) (root : Frame) :
    word (mirror root.addr (511 - UInt64.ofNat 256) 256 mem) root 255 =
        mirrorEntry (word mem root 0) ∧
      (∀ i (hi : i < 255),
        word (mirror root.addr (511 - UInt64.ofNat 256) 256 mem) root
          (mirrorIndex 256 i (by omega)) = mirrorEntry (word mem root ⟨i, by omega⟩)) ∧
      word (mirror root.addr (511 - UInt64.ofNat 256) 256 mem) root 510 =
        mirrorEntry (mirrorEntry (word mem root 0)) ∧
      ∀ f k, (f = root → k.val < 255 ∨ 511 ≤ k.val) →
        word (mirror root.addr (511 - UInt64.ofNat 256) 256 mem) f k = word mem f k := by
  obtain ⟨hdone, hoff⟩ := @mirror_rounds mem root 256 255 le_rfl (by decide) le_rfl
  -- the last round copies entry 255, where the copy of entry 0 stands by then
  have hlast : mirror root.addr (511 - UInt64.ofNat 256) 256 mem =
      mirrorStep root.addr (511 - UInt64.ofNat 256)
        ((List.range 255).foldl (mirrorStep root.addr (511 - UInt64.ofNat 256)) mem) 255 := by
    show (List.range (255 + 1)).foldl (mirrorStep root.addr (511 - UInt64.ofNat 256)) mem = _
    rw [List.range_succ, List.foldl_append, List.foldl_cons, List.foldl_nil]
  generalize (List.range 255).foldl (mirrorStep root.addr (511 - UInt64.ofNat 256)) mem = mem'
    at hdone hoff hlast
  have hword : ∀ f k, word (mirror root.addr (511 - UInt64.ofNat 256) 256 mem) f k =
      if f = root ∧ k = 510 then mirrorEntry (word mem' root 255) else word mem' f k := by
    intro f k
    rw [hlast]
    exact @word_mirrorStep _ root 256 255 (by decide) (by decide) f k
  have hindex : mirrorIndex 256 0 (by decide) = 255 := Fin.ext rfl
  have hfirst : word mem' root 255 = mirrorEntry (word mem root 0) := by
    rw [← hindex]
    exact hdone 0 (by decide)
  have h510 : (510 : Fin 512).val = 510 := rfl
  refine ⟨?_, fun i hi => ?_, ?_, fun f k hk => ?_⟩
  · rw [hword, if_neg fun h => absurd h.2 (by decide), hfirst]
  · have hne : mirrorIndex 256 i (by omega) ≠ 510 := by
      intro heq
      have hval := congrArg Fin.val heq
      rw [mirrorIndex_val, h510] at hval
      omega
    rw [hword, if_neg fun h => hne h.2]
    exact hdone i hi
  · rw [hword, if_pos ⟨rfl, rfl⟩, hfirst]
  · have hne : ¬ (f = root ∧ k = 510) := by
      rintro ⟨hf, rfl⟩
      have hval := hk hf
      omega
    rw [hword, if_neg hne]
    exact hoff f k fun hf => (hk hf).imp id fun h => by omega

end Words

/-! ### The addresses of the mirror -/

section Addresses

variable {start : ℕ} {v : UInt64}

/-- The address at which the mirror begins. -/
theorem toNat_base (h : start < 512) :
    (offsetsToAddr (UInt64.ofNat start) 0 0 0).toNat =
      (if 256 ≤ start then 2 ^ 64 - 2 ^ 48 else 0) + start * 2 ^ 39 := by
  have hstart : (UInt64.ofNat start).toNat = start :=
    UInt64.toNat_ofNat_of_lt' (h.trans (by decide))
  have hzero : (0 : UInt64).toNat < 512 := by decide
  have hjoin := toNat_offsetsToAddr (hstart.trans_lt h) hzero hzero hzero
  rw [hstart] at hjoin
  simpa using hjoin

theorem toNat_add_base (hv : start + v.toNat / 2 ^ 39 < 512) :
    (offsetsToAddr (UInt64.ofNat start) 0 0 0 + v).toNat =
      (if 256 ≤ start then 2 ^ 64 - 2 ^ 48 else 0) + start * 2 ^ 39 + v.toNat := by
  rw [UInt64.toNat_add, toNat_base (by omega)]
  split <;> omega

/-- The base moves an address by `start` entries of the PML4. -/
theorem vaPath_add_base (hv : start + v.toNat / 2 ^ 39 < 512) :
    (toIndex (vaGetPml4Index (offsetsToAddr (UInt64.ofNat start) 0 0 0 + v))).val =
        start + (toIndex (vaGetPml4Index v)).val ∧
      (vaPath (offsetsToAddr (UInt64.ofNat start) 0 0 0 + v)).tail = (vaPath v).tail := by
  have hsum := toNat_add_base hv
  generalize offsetsToAddr (UInt64.ofNat start) 0 0 0 + v = v' at hsum
  constructor
  · show (vaGetPml4Index v').toNat % 512 = start + (vaGetPml4Index v).toNat % 512
    rw [toNat_vaGetPml4Index, toNat_vaGetPml4Index]
    split at hsum <;> omega
  · simp only [vaPath, List.tail_cons, toIndex, List.cons.injEq, Fin.mk.injEq, and_true,
      toNat_vaGetPdpIndex, toNat_vaGetPdIndex, toNat_vaGetPtIndex]
    refine ⟨?_, ?_, ?_⟩
    all_goals split at hsum <;> omega

/-- The upper half of the mirror is canonical, and its lower half is only up to the end
of the lower half of the addresses. -/
theorem canonical_add_base (hv : start + v.toNat / 2 ^ 39 < 512) :
    Canonical (offsetsToAddr (UInt64.ofNat start) 0 0 0 + v) ↔
      256 ≤ start ∨ start + v.toNat / 2 ^ 39 < 256 := by
  rw [Canonical, toNat_add_base hv]
  split <;> omega

/-- The entry of the PML4 at which the mirror starts. -/
theorem index_base (h : start < 512) :
    (toIndex (vaGetPml4Index (offsetsToAddr (UInt64.ofNat start) 0 0 0))).val = start := by
  have hindex := (@vaPath_add_base start 0 h).1
  rwa [UInt64.add_zero] at hindex

end Addresses

/-! ### Translations through a copy -/

section Translations

variable {mem mem' : UInt64 → UInt64} {root g : Frame} {v v' pa : UInt64}

/-- What is translated is translated by tables from the second level on. -/
theorem exists_table_of_translate (h : translate mem root v = some pa) :
    ∃ g, decode 3 (word mem root (toIndex (vaGetPml4Index v))) = .table g := by
  unfold translate vaPath at h
  cases hentry : decode 3 (word mem root (toIndex (vaGetPml4Index v))) with
  | absent =>
    rw [lookup_of_absent hentry] at h
    cases h
  | leaf =>
    rw [lookup_of_leaf hentry] at h
    cases h
  | table g => exact ⟨g, rfl⟩

/-- Two addresses that differ in the first index only, where the entries link the same
table. -/
theorem translate_copied (hroot : ∀ f i, ¬ Links decode (word mem) root 4 f i root)
    (hoff : ∀ f k, f ≠ root → word mem' f k = word mem f k)
    (htail : (vaPath v').tail = (vaPath v).tail)
    (hg : decode 3 (word mem root (toIndex (vaGetPml4Index v))) = .table g)
    (hg' : decode 3 (word mem' root (toIndex (vaGetPml4Index v'))) = .table g) :
    translate mem' root v' = translate mem root v := by
  have hpath : ∀ u, vaPath u = toIndex (vaGetPml4Index u) :: (vaPath u).tail := fun u => rfl
  unfold translate
  rw [hpath v, hpath v', htail, lookup_of_table hg', lookup_of_table hg]
  congr 1
  refine lookup_congr fun π i ρ k hτ hk => ?_
  -- no table below the root is the root
  refine hoff k i (ne_root_of_tableAt hroot (π := toIndex (vaGetPml4Index v) :: π) ?_ (by simp))
  exact tableAt_cons_eq_some.mpr ⟨g, hg, hk⟩

end Translations

/-! ### The faithful mirror -/

/-- The mirror is faithful: no entry in use is changed, what the lower half translates is
found at the base, and the entries that come into use are copies of entries in use. -/
structure FaithfulMirror (mem mem' : UInt64 → UInt64) (root : Frame) (base : UInt64) : Prop where
  kept : ∀ i, word mem root i &&& presentFlag ≠ 0 → word mem' root i = word mem root i
  translated : ∀ v pa, v.toNat < 2 ^ 47 → translate mem root v = some pa →
    Canonical (base + v) ∧ translate mem' root (base + v) = some pa
  added : ∀ k, word mem root k &&& presentFlag = 0 → word mem' root k &&& presentFlag ≠ 0 →
    ∃ i, word mem root i &&& presentFlag ≠ 0 ∧
      k.val = (toIndex (vaGetPml4Index base)).val + i.val ∧
      entryFrame (word mem' root k) = entryFrame (word mem root i)

/-- The entries in use are the first ones, and not all of the lower half; or all of the
lower half, but its last entry is already the copy of the first one, and there is nothing
that the tables translate. -/
def MirrorCondition (mem : UInt64 → UInt64) (root : Frame) : Prop :=
  ((∀ i j : Fin 512, i ≤ j → word mem root j &&& presentFlag ≠ 0 →
      word mem root i &&& presentFlag ≠ 0) ∧
    ∃ i : Fin 512, i.val < 256 ∧ word mem root i &&& presentFlag = 0) ∨
  ((∀ i : Fin 512, i.val < 256 → word mem root i &&& presentFlag ≠ 0) ∧
    word mem root 255 = mirrorEntry (word mem root 0) ∧
    ∀ v, v.toNat < 2 ^ 47 → translate mem root v = none)

section Faithful

variable {mem : UInt64 → UInt64} {root : Frame}

/-- The number of entries in use, if the upper half is empty. -/
theorem countPresent_le
    (hupper : ∀ i : Fin 512, 256 ≤ i.val → word mem root i &&& presentFlag = 0) :
    countPresent root.addr mem ≤ 256 ∧ (256 ≤ countPresent root.addr mem →
      ∀ i : Fin 512, i.val < 256 → word mem root i &&& presentFlag ≠ 0) := by
  rw [countPresent_eq_count]
  obtain ⟨hle, hall⟩ := count_of_lt (n := 512) (m := 256)
    (p := fun i => mem (root.addr + 8 * UInt64.ofNat i) &&& presentFlag ≠ 0) fun i hi hp => by
      by_contra hge
      exact hp (hupper ⟨i, hi⟩ (by dsimp only; omega))
  exact ⟨hle, fun h i hi => hall h i.val hi⟩

theorem setUpMapping_mapAll (h : countPresent root.addr mem ≤ 511) :
    setUpMapping .mapAll root.addr root.addr mem =
      (mirror root.addr (511 - UInt64.ofNat (countPresent root.addr mem))
        (countPresent root.addr mem) mem,
      offsetsToAddr (UInt64.ofNat (511 - countPresent root.addr mem)) 0 0 0) := by
  have hstart : 511 - UInt64.ofNat (countPresent root.addr mem) =
      UInt64.ofNat (511 - countPresent root.addr mem) := by
    have hsum : UInt64.ofNat (511 - countPresent root.addr mem) +
        UInt64.ofNat (countPresent root.addr mem) = 511 := by
      rw [← UInt64.ofNat_add, Nat.sub_add_cancel h]
      rfl
    rw [← hsum]
    grind
  unfold setUpMapping
  dsimp only
  rw [hstart]

/-- An entry in the place of a copy. -/
theorem exists_copied {count : ℕ} (hcount : count ≤ 511) {k : Fin 512}
    (hk : ¬ (k.val < 511 - count ∨ 511 ≤ k.val)) :
    ∃ i, ∃ hi : i < count, k = mirrorIndex count i hi :=
  ⟨k.val - (511 - count), by omega, Fin.ext (by rw [mirrorIndex_val]; omega)⟩

theorem faithful_of_dense (hroot : ∀ f i, ¬ Links decode (word mem) root 4 f i root)
    (hcount : countPresent root.addr mem ≤ 255)
    (hdense : ∀ i : Fin 512, word mem root i &&& presentFlag ≠ 0 ↔
      i.val < countPresent root.addr mem) :
    FaithfulMirror mem (setUpMapping .mapAll root.addr root.addr mem).1 root
      (setUpMapping .mapAll root.addr root.addr mem).2 := by
  rw [setUpMapping_mapAll (by omega)]
  dsimp only
  generalize countPresent root.addr mem = count at hcount hdense
  obtain ⟨hcopy, hoff⟩ := mirror_spec mem root hcount
  generalize mirror root.addr (511 - UInt64.ofNat count) count mem = mem' at hcopy hoff
  constructor
  -- the entries in use are the first `count`, and the copies lie behind them
  · intro i hi
    have hlt := (hdense i).mp hi
    exact hoff root i fun _ => .inl (by omega)
  · intro v pa hv hpa
    obtain ⟨g, hg⟩ := exists_table_of_translate hpa
    have hindex : (toIndex (vaGetPml4Index v)).val = v.toNat / 2 ^ 39 := by
      show (vaGetPml4Index v).toNat % 512 = _
      rw [toNat_vaGetPml4Index]
      omega
    have hlt := (hdense _).mp (decode_eq_table.mp hg).1
    obtain ⟨hfirst, htail⟩ := @vaPath_add_base (511 - count) v (by omega)
    -- the address in the upper half goes through the copy of its entry
    refine ⟨(canonical_add_base (by omega)).mpr (.inl (by omega)), ?_⟩
    rw [translate_copied (g := g) hroot (fun f k hf => hoff f k fun h => absurd h hf) htail hg, hpa]
    have hplace : toIndex (vaGetPml4Index (offsetsToAddr (UInt64.ofNat (511 - count)) 0 0 0 + v)) =
        mirrorIndex count (toIndex (vaGetPml4Index v)).val hlt :=
      Fin.ext (by rw [hfirst, mirrorIndex_val]; omega)
    obtain ⟨-, -, -, hframe⟩ := decode_eq_table.mp hg
    rw [hplace, hcopy, ← hframe]
    exact decode_mirrored (by decide) _
  · intro k hk hk'
    -- an entry that is new is a copy
    by_cases hold : k.val < 511 - count ∨ 511 ≤ k.val
    · rw [hoff root k fun _ => hold] at hk'
      exact absurd hk hk'
    · obtain ⟨i, hi, rfl⟩ := exists_copied (by omega) hold
      refine ⟨⟨i, by omega⟩, (hdense _).mpr hi, ?_, ?_⟩
      · rw [index_base (by omega), mirrorIndex_val]
        show i + 511 - count = 511 - count + i
        omega
      · rw [hcopy, entryFrame_mirrorEntry]

theorem faithful_of_full (hcount : countPresent root.addr mem = 256)
    (hall : ∀ i : Fin 512, i.val < 256 → word mem root i &&& presentFlag ≠ 0)
    (hupper : ∀ i : Fin 512, 256 ≤ i.val → word mem root i &&& presentFlag = 0)
    (hlast : word mem root 255 = mirrorEntry (word mem root 0))
    (hnone : ∀ v, v.toNat < 2 ^ 47 → translate mem root v = none) :
    FaithfulMirror mem (setUpMapping .mapAll root.addr root.addr mem).1 root
      (setUpMapping .mapAll root.addr root.addr mem).2 := by
  rw [setUpMapping_mapAll (by omega), hcount]
  dsimp only
  obtain ⟨h255, hcopy, h510, hoff⟩ := mirror_full mem root
  generalize mirror root.addr (511 - UInt64.ofNat 256) 256 mem = mem' at h255 hcopy h510 hoff
  constructor
  · intro i hi
    have hlt : i.val < 256 := by
      by_contra hge
      exact hi (hupper i (by omega))
    rcases Nat.lt_succ_iff_lt_or_eq.mp hlt with hlt | heq
    · exact hoff root i fun _ => .inl hlt
    · obtain rfl : i = 255 := Fin.ext heq
      rw [h255, hlast]
  · intro v pa hv hpa
    rw [hnone v hv] at hpa
    cases hpa
  · intro k hk hk'
    have hge : 256 ≤ k.val := by
      by_contra hlt
      exact hall k (by omega) hk
    by_cases hold : k.val < 511 - 256 ∨ 511 ≤ k.val
    · rw [hoff root k fun _ => hold] at hk'
      exact absurd hk hk'
    · obtain ⟨i, hi, rfl⟩ := exists_copied (by decide) hold
      refine ⟨⟨i, by omega⟩, hall _ hi, ?_, ?_⟩
      · rw [index_base (by decide), mirrorIndex_val]
        show i + 511 - 256 = 511 - 256 + i
        omega
      · rcases Nat.lt_succ_iff_lt_or_eq.mp hi with hlt | rfl
        · rw [hcopy i hlt, entryFrame_mirrorEntry]
        · -- the last round copies the copy of the first entry
          show entryFrame (word mem' root 510) = entryFrame (word mem root 255)
          rw [h510, entryFrame_mirrorEntry, ← hlast]

/-- Entries that are not in use are copied if the entries in use are not the first ones. -/
theorem dense_of_faithful
    (hupper : ∀ i : Fin 512, 256 ≤ i.val → word mem root i &&& presentFlag = 0)
    (hcount : countPresent root.addr mem ≤ 255)
    (h : FaithfulMirror mem (setUpMapping .mapAll root.addr root.addr mem).1 root
      (setUpMapping .mapAll root.addr root.addr mem).2) (i : Fin 512) :
    word mem root i &&& presentFlag ≠ 0 ↔ i.val < countPresent root.addr mem := by
  rw [setUpMapping_mapAll (by omega)] at h
  have hcopy := (mirror_spec mem root hcount).1
  have hadded := h.added
  have hbelow : ∀ i < countPresent root.addr mem, mem (root.addr + 8 * UInt64.ofNat i) &&&
      presentFlag ≠ 0 := by
    intro i hi
    have hword := hcopy i hi
    obtain ⟨j, hj, hplace, -⟩ := hadded (mirrorIndex _ i hi)
      (hupper _ (by rw [mirrorIndex_val]; omega)) (by rw [hword]; exact present_mirrorEntry _)
    dsimp only at hplace
    rw [index_base (by omega), mirrorIndex_val] at hplace
    have heq : j.val = i := by omega
    rw [← heq]
    exact hj
  refine ⟨fun hi => ?_, hbelow i.val⟩
  rw [countPresent_eq_count] at hbelow ⊢
  exact lt_count (p := fun i => mem (root.addr + 8 * UInt64.ofNat i) &&& presentFlag ≠ 0) hbelow
    i.isLt hi

/-- What the first entry translates, a copy of it translates too. -/
theorem translate_last (hroot : ∀ f i, ¬ Links decode (word mem) root 4 f i root)
    (hlast : word mem root 255 = mirrorEntry (word mem root 0)) {v pa : UInt64}
    (hv : v.toNat < 2 ^ 39) (hpa : translate mem root v = some pa) :
    ∃ v', 2 ^ 39 ≤ v'.toNat ∧ v'.toNat < 2 ^ 47 ∧ translate mem root v' = some pa := by
  obtain ⟨start, hstart⟩ : ∃ start : ℕ, start = 255 := ⟨_, rfl⟩
  obtain ⟨hfirst, htail⟩ := @vaPath_add_base start v (by omega)
  have hsum := @toNat_add_base start v (by omega)
  rw [if_neg (by omega)] at hsum
  generalize offsetsToAddr (UInt64.ofNat start) 0 0 0 + v = v' at hfirst htail hsum
  refine ⟨v', by omega, by omega, ?_⟩
  have hval : (toIndex (vaGetPml4Index v)).val = 0 := by
    show (vaGetPml4Index v).toNat % 512 = 0
    rw [toNat_vaGetPml4Index]
    omega
  have hindex : toIndex (vaGetPml4Index v) = 0 := Fin.ext hval
  have hindex' : toIndex (vaGetPml4Index v') = 255 := by
    refine Fin.ext ?_
    rw [hfirst, hval, hstart]
    rfl
  obtain ⟨g, hg⟩ := exists_table_of_translate hpa
  have hg' : decode 3 (word mem root (toIndex (vaGetPml4Index v'))) = .table g := by
    obtain ⟨-, -, -, hframe⟩ := decode_eq_table.mp hg
    rw [hindex', hlast, ← hframe, hindex]
    exact decode_mirrored (by decide) _
  rw [translate_copied hroot (fun _ _ _ => rfl) htail hg hg', hpa]

/-- If the lower half is full, then the base leads out of the canonical addresses. -/
theorem full_of_faithful (hroot : ∀ f i, ¬ Links decode (word mem) root 4 f i root)
    (hcount : countPresent root.addr mem = 256)
    (hall : ∀ i : Fin 512, i.val < 256 → word mem root i &&& presentFlag ≠ 0)
    (h : FaithfulMirror mem (setUpMapping .mapAll root.addr root.addr mem).1 root
      (setUpMapping .mapAll root.addr root.addr mem).2) :
    word mem root 255 = mirrorEntry (word mem root 0) ∧
      ∀ v, v.toNat < 2 ^ 47 → translate mem root v = none := by
  have hfull := (mirror_full mem root).1
  rw [setUpMapping_mapAll (by omega), hcount] at h
  dsimp only at h
  generalize mirror root.addr (511 - UInt64.ofNat 256) 256 mem = mem' at hfull h
  have hlast : word mem root 255 = mirrorEntry (word mem root 0) := by
    rw [← h.kept 255 (hall 255 (by decide)), hfull]
  have hbeyond : ∀ v pa, v.toNat < 2 ^ 47 → 2 ^ 39 ≤ v.toNat →
      translate mem root v ≠ some pa := by
    intro v pa hv hge hpa
    have hcanonical := (h.translated v pa hv hpa).1
    rcases (@canonical_add_base (511 - 256) v (by omega)).mp hcanonical with hstart | hlow
    · exact absurd hstart (by decide)
    · omega
  refine ⟨hlast, fun v hv => ?_⟩
  cases hpa : translate mem root v with
  | none => rfl
  | some pa =>
    exfalso
    rcases Nat.lt_or_ge v.toNat (2 ^ 39) with hlt | hge
    · obtain ⟨v', hge', hlt', hpa'⟩ := translate_last hroot hlast hlt hpa
      exact hbeyond v' pa hlt' hge' hpa'
    · exact hbeyond v pa hv hge hpa

/-- `MAPPING_TYPE_MAP_ALL` makes a faithful mirror of a PML4 with an empty upper half
exactly if the entries in use are the first ones and not all of the lower half, or if they
are all of the lower half and nothing is lost with the last one. -/
theorem setUpMapping_faithful_iff (hroot : ∀ f i, ¬ Links decode (word mem) root 4 f i root)
    (hupper : ∀ i : Fin 512, 256 ≤ i.val → word mem root i &&& presentFlag = 0) :
    FaithfulMirror mem (setUpMapping .mapAll root.addr root.addr mem).1 root
      (setUpMapping .mapAll root.addr root.addr mem).2 ↔ MirrorCondition mem root := by
  obtain ⟨hle, hfull⟩ := countPresent_le hupper
  constructor
  · intro h
    rcases Nat.lt_or_ge (countPresent root.addr mem) 256 with hlt | hge
    · have hdense := dense_of_faithful hupper (by omega) h
      refine .inl ⟨fun i j hij hj => (hdense i).mpr ?_, 255, by decide, ?_⟩
      · exact lt_of_le_of_lt hij ((hdense j).mp hj)
      · by_contra hpresent
        have h255 : (255 : Fin 512).val < countPresent root.addr mem := (hdense 255).mp hpresent
        have hval : (255 : Fin 512).val = 255 := rfl
        omega
    · have hall := hfull hge
      exact .inr ⟨hall, full_of_faithful hroot (by omega) hall h⟩
  · rintro (⟨hdense, i, hi, habsent⟩ | ⟨hall, hlast, hnone⟩)
    · have hiff := Mirrorable.count ⟨hdense, i, habsent⟩
      refine faithful_of_dense hroot ?_ hiff.2
      have hge := (not_congr (hiff.2 i)).mp (not_not.mpr habsent)
      omega
    · have hiff := @Mirrorable.count mem root
        ⟨fun i j hij hj => hall i ?_, 256, hupper 256 le_rfl⟩
      · refine faithful_of_full ?_ hall hupper hlast hnone
        have h255 := (hiff.2 255).mp (hall 255 (by decide))
        have hval : (255 : Fin 512).val = 255 := rfl
        omega
      · by_contra hge
        exact hj (hupper j (by omega))

end Faithful

/-- The entries of the moved PML4 that are no copies. -/
theorem initial_root_entry {mem : UInt64 → UInt64} {root : Frame} {tables dest : UefiDescriptor}
    {k : Fin 512} (h : Relocatable mem root tables.physicalStart dest.physicalStart
      tables.numberOfPages) (hcount : countPresent root.addr mem ≤ 255)
    (hk : k.val < 511 - countPresent root.addr mem ∨ 511 ≤ k.val) :
    decode 3 (word (initialMapping .mapAll root.addr tables dest mem).mem
        (moved dest.physicalStart tables.physicalStart root) k) =
      (decode 3 (word mem root k)).map (moved dest.physicalStart tables.physicalStart) := by
  have hentry := h.moves.root_entry k
  have hplace : newPlace dest.physicalStart tables.physicalStart 0 root =
    moved dest.physicalStart tables.physicalStart root := if_pos (by decide)
  have hplace' : newPlace dest.physicalStart tables.physicalStart 1 =
    moved dest.physicalStart tables.physicalStart := funext fun f => if_pos (by decide)
  rw [hplace, hplace'] at hentry
  have hsame := h.countPresent_eq
  have hstate := initialMapping_mem .mapAll h
  generalize moved dest.physicalStart tables.physicalStart root = new at *
  rw [hstate, ← hentry]
  generalize (relocateTables dest.physicalStart tables.physicalStart tables.numberOfPages root.addr
    mem).mem = mem₁ at hsame
  generalize (root.addr &&& ~~~addrMask) ||| (new.addr &&& addrMask) = cr3
  have hdecode := fun i => @decode_setWritable mem₁ 3 cr3 root.addr new i
  rw [← hdecode]
  generalize setWritable cr3 root.addr mem₁ = mem₂ at hdecode
  have hcount₂ : countPresent new.addr mem₂ = countPresent root.addr mem := by
    rw [← hsame]
    refine countPresent_congr fun i => ?_
    rw [← decode_absent_iff (n := 3), hdecode, decode_absent_iff]
  rw [setUpMapping_mapAll (by omega), (mirror_spec _ _ (by omega)).2 new k fun _ => by omega]

section Example

variable {entry : UInt64}

theorem word_firmwareMem_root {i : Fin 512} (hi : i ≠ 0) :
    word (firmwareMem entry) firmwareRoot i = 0 := by
  rw [word_firmwareMem, if_neg fun h => hi h.2, if_neg fun h => hi h.2]

theorem firmwareMem_upper (i : Fin 512) (hi : 256 ≤ i.val) :
    word (firmwareMem entry) firmwareRoot i &&& presentFlag = 0 := by
  have hne : i ≠ 0 := by
    rintro rfl
    exact absurd hi (by decide)
  rw [word_firmwareMem_root hne]
  decide

theorem firmwareMem_mirrorable : Mirrorable (firmwareMem entry) firmwareRoot where
  dense i j hij hj := by
    have hj0 : j = 0 := by
      by_contra hne
      rw [word_firmwareMem_root hne] at hj
      exact hj (by decide)
    subst hj0
    rwa [Fin.le_zero_iff.mp hij]
  free := ⟨1, by rw [word_firmwareMem_root (by decide)]; decide⟩

theorem firmwareMem_count : countPresent firmwareRoot.addr (firmwareMem entry) ≤ 255 := by
  obtain ⟨-, hall⟩ := countPresent_le (@firmwareMem_upper entry)
  by_contra hge
  refine hall (by omega) 1 (by decide) ?_
  rw [word_firmwareMem_root (by decide)]
  decide

end Example

/-- One large page is mirrored. -/
theorem faithful_firmwareMem :
    FaithfulMirror (firmwareMem largePage)
      (setUpMapping .mapAll firmwareRoot.addr firmwareRoot.addr (firmwareMem largePage)).1
      firmwareRoot
      (setUpMapping .mapAll firmwareRoot.addr firmwareRoot.addr (firmwareMem largePage)).2 := by
  refine (setUpMapping_faithful_iff (fun f i h => ?_) firmwareMem_upper).mpr
    (.inl ⟨firmwareMem_mirrorable.dense, 1, by decide, ?_⟩)
  · exact absurd (firmwareMem_links largePage_ne_table h).2.2 (by decide)
  · rw [word_firmwareMem_root (by decide)]
    decide

/-- A PML4 with its second entry in use. -/
def gapMem (a : UInt64) : UInt64 := if a = 0x2008 then 0x3003 else 0

theorem word_gapMem (f : Frame) (i : Fin 512) :
    word gapMem f i = if f = firmwareRoot ∧ i = 1 then 0x3003 else 0 := by
  have hplace : f.addr + 8 * UInt64.ofNat i.val = 0x2008 ↔ f = firmwareRoot ∧ i = 1 :=
    wordAddr_inj (g := firmwareRoot) (j := 1)
  rw [word, gapMem]
  simp only [hplace]

/-- With a gap in front of the entry in use, the entry that is copied is not in use. -/
theorem not_faithful_gapMem :
    (∀ f i, ¬ Links decode (word gapMem) firmwareRoot 4 f i firmwareRoot) ∧
      (∀ i : Fin 512, 256 ≤ i.val → word gapMem firmwareRoot i &&& presentFlag = 0) ∧
      ¬ FaithfulMirror gapMem
        (setUpMapping .mapAll firmwareRoot.addr firmwareRoot.addr gapMem).1 firmwareRoot
        (setUpMapping .mapAll firmwareRoot.addr firmwareRoot.addr gapMem).2 := by
  have hword : ∀ i : Fin 512, i ≠ 1 → word gapMem firmwareRoot i = 0 := by
    intro i hi
    rw [word_gapMem, if_neg fun h => hi h.2]
  have hupper : ∀ i : Fin 512, 256 ≤ i.val → word gapMem firmwareRoot i &&& presentFlag = 0 := by
    intro i hi
    rw [hword i fun h => absurd hi (h ▸ by decide)]
    decide
  refine ⟨?_, hupper, fun h => ?_⟩
  -- the only link of the PML4 goes somewhere else
  · rintro f i ⟨π, m, -, -, hlink⟩
    obtain ⟨hpresent, -, -, hframe⟩ := decode_eq_table.mp hlink
    rw [word_gapMem] at hpresent hframe
    by_cases hf : f = firmwareRoot ∧ i = 1
    · rw [if_pos hf] at hframe
      exact absurd hframe (by decide)
    · rw [if_neg hf] at hpresent
      exact hpresent (by decide)
  · have hzero : word gapMem firmwareRoot 0 &&& presentFlag = 0 := by
      rw [hword 0 (by decide)]
      decide
    have hone : word gapMem firmwareRoot 1 &&& presentFlag ≠ 0 := by
      rw [word_gapMem, if_pos ⟨rfl, rfl⟩]
      decide
    obtain ⟨-, hall⟩ := countPresent_le hupper
    have hcount : countPresent firmwareRoot.addr gapMem ≤ 255 := by
      by_contra hge
      exact hall (by omega) 0 (by decide) hzero
    have hdense := dense_of_faithful hupper hcount h
    have hlt : (1 : Fin 512).val < countPresent firmwareRoot.addr gapMem := (hdense 1).mp hone
    exact (hdense 0).mpr (by rw [Fin.val_zero]; omega) hzero

end Betelgeuse
