/-
What the second loop of the bitmap construction does.

`markRounds_ok_iff`, `get_markRounds`: a list of rounds ends if and only if all of
them are safe, and then exactly the bits they name are clear.

`buildBitmap_of_bestFit`: the second loop is a list of rounds, one for each index of
each inner loop (`rounds`).  A descriptor that the bitmap has overwritten has none:
read as ones, it has a type that is passed over (`loopStart_read_fullBitmap`).  Only
a map that begins below the bitmap and runs into it is left out: there the first
descriptors change what is read of the others.
-/
import Betelgeuse.BootSelect

open WordBitmap WordArith

namespace Betelgeuse

namespace BootTable

variable {bt : BootTable}

/-! ### One round of the second loop -/

/-- A round of an inner loop: `physical_start` of the descriptor, and the index. -/
abbrev Round := UInt64 × UInt64

/-- The shift and the access of a round are defined. -/
def SafeRound (r : Round) : Prop :=
  12 + r.2 < 64 ∧ r.1 >>> (12 + r.2) >>> 6 < pageBitmapLength

/-- The number of the page that a round marks. -/
def roundPage (r : Round) : ℕ := (r.1 >>> (12 + r.2)).toNat

/-- To mark page `q` is to clear the bit of page `p`. -/
def Clears (one : ℕ → UInt64) (q p : ℕ) : Prop :=
  p / 64 = q / 64 ∧ bit (one (q % 64)) (p % 64) = true

instance (one : ℕ → UInt64) (q p : ℕ) : Decidable (Clears one q p) :=
  inferInstanceAs (Decidable (_ ∧ _))

/-- The pages whose bits are cleared when page `q` is marked: the offset counts modulo
32, and the sign that a shift by 31 leaves goes through the upper half of the word. -/
def clearedPages (q : ℕ) : Set ℕ := {p | p / 64 = q / 64 ∧ min (p % 64) 31 = q % 32}

theorem clears_mask {q p : ℕ} : Clears mask q p ↔ p = q := by
  rw [Clears, bit_mask (Nat.mod_lt p (by omega)), decide_eq_true_iff]
  omega

theorem bit_shiftedOne (k : ℕ) {j : ℕ} (hj : j < 64) :
    bit (shiftedOne k) j = decide (min j 31 = k % 32) := by
  have hone : ((1 : UInt32) <<< UInt32.ofNat k).toBitVec = BitVec.twoPow 32 (k % 32) := by
    have hcount : (UInt32.ofNat k).toBitVec.toNat % 32 = k % 32 := by
      show k % 2 ^ 32 % 32 = k % 32
      omega
    rw [UInt32.toBitVec_shiftLeft, BitVec.shiftLeft_eq', BitVec.toNat_umod]
    show (1#32) <<< ((UInt32.ofNat k).toBitVec.toNat % 32) = _
    rw [hcount, BitVec.twoPow]
  rw [bit, shiftedOne, getLsbD_signExtend _ hj, hone, BitVec.getLsbD_twoPow,
    decide_eq_true (Nat.mod_lt k (by omega)), Bool.true_and]
  exact decide_eq_decide.mpr eq_comm

theorem clears_shiftedOne {q p : ℕ} : Clears shiftedOne q p ↔ p ∈ clearedPages q := by
  have hmod : q % 64 % 32 = q % 32 := by omega
  rw [Clears, bit_shiftedOne _ (Nat.mod_lt p (by omega)), decide_eq_true_iff, hmod]
  exact Iff.rfl

variable {one : ℕ → UInt64}

theorem markPage_ok_iff (one : ℕ → UInt64) (r : Round) (b : Bitmap) :
    (∃ b', markPage one r.1 r.2 b = .ok b') ↔ SafeRound r := by
  rw [SafeRound, ← UInt64.not_le, ← UInt64.not_le]
  by_cases hcount : (64 : UInt64) ≤ 12 + r.2
  · simp [markPage, hcount]
  · by_cases hindex : pageBitmapLength ≤ r.1 >>> (12 + r.2) >>> 6
    · simp [markPage, hcount, hindex]
    · simp [markPage, hcount, hindex]

theorem get_markPage {r : Round} {b b' : Bitmap} (h : markPage one r.1 r.2 b = .ok b') (p : ℕ) :
    get b' p = (get b p && !decide (Clears one (roundPage r) p)) := by
  unfold markPage at h
  simp only [ge_iff_le] at h
  split at h
  · cases h
  · split at h
    · cases h
    · obtain rfl := Except.ok.inj h
      have hoffset : (r.1 >>> (12 + r.2) &&& 0b111111).toNat = roundPage r % 64 :=
        toNat_and_mask (w := 6) rfl
      have hindex : (r.1 >>> (12 + r.2) >>> 6).toNat = roundPage r / 64 :=
        toNat_shiftRight (n := 6) rfl
      rw [get_clearMask, hoffset, hindex]
      congr 2
      rw [Bool.eq_iff_iff, decide_eq_true_iff, Bool.and_eq_true, decide_eq_true_iff]
      exact Iff.rfl

/-! ### All rounds -/

/-- The inner loops as one loop over a list of rounds. -/
def markRounds (one : ℕ → UInt64) (l : List Round) (b : Bitmap) : Except Fault Bitmap :=
  l.foldlM (fun b r => markPage one r.1 r.2 b) b

theorem markRounds_nil (b : Bitmap) : markRounds one [] b = .ok b := rfl

theorem markRounds_cons (r : Round) (l : List Round) (b : Bitmap) :
    markRounds one (r :: l) b = markPage one r.1 r.2 b >>= markRounds one l := rfl

theorem markRounds_append (l l' : List Round) (b : Bitmap) :
    markRounds one (l ++ l') b = markRounds one l b >>= markRounds one l' :=
  List.foldlM_append

/-- The loop ends if and only if all its rounds are safe. -/
theorem markRounds_ok_iff (one : ℕ → UInt64) (l : List Round) (b : Bitmap) :
    (∃ b', markRounds one l b = .ok b') ↔ ∀ r ∈ l, SafeRound r := by
  induction l generalizing b with
  | nil => simp [markRounds_nil]
  | cons r l ih =>
    rw [markRounds_cons, List.forall_mem_cons]
    cases hr : markPage one r.1 r.2 b with
    | error e =>
      have hunsafe : ¬ SafeRound r := by
        rw [← markPage_ok_iff one r b, hr]
        rintro ⟨b', h⟩
        cases h
      constructor
      · rintro ⟨b', h⟩
        cases h
      · exact fun h => absurd h.1 hunsafe
    | ok b₁ =>
      have hsafe : SafeRound r := (markPage_ok_iff one r b).mp ⟨b₁, hr⟩
      exact (ih b₁).trans (and_iff_right hsafe).symm

/-- Then the pages that its rounds clear are free, and no others. -/
theorem get_markRounds {l : List Round} {b b' : Bitmap} (h : markRounds one l b = .ok b')
    (p : ℕ) : get b' p = false ↔ get b p = false ∨ ∃ r ∈ l, Clears one (roundPage r) p := by
  induction l generalizing b with
  | nil =>
    obtain rfl := Except.ok.inj h
    simp
  | cons r l ih =>
    rw [markRounds_cons] at h
    cases hr : markPage one r.1 r.2 b with
    | error e =>
      rw [hr] at h
      cases h
    | ok b₁ =>
      rw [hr] at h
      rw [ih h, get_markPage hr, Bool.and_eq_false_iff, Bool.not_eq_false', decide_eq_true_iff,
        List.exists_mem_cons_iff]
      tauto

theorem get_fullBitmap (p : ℕ) : get fullBitmap p = true := by
  have hones : (uint64Max).toBitVec = BitVec.allOnes 64 := rfl
  show (uint64Max).toBitVec.getLsbD (p % 64) = true
  rw [hones, BitVec.getLsbD_allOnes]
  exact decide_eq_true (Nat.mod_lt p (by omega))

/-! ### Descriptors that are read from memory -/

theorem readUnder_eq {place x : ℕ} {b : Bitmap} {v : UInt64}
    (h : ∀ y, x ≤ y → y < x + 8 → ¬ InBitmap place y) : readUnder place b x v = v := by
  refine eq_of_bit_eq fun j hj => ?_
  rw [readUnder, bit_ofBits _ hj]
  exact if_neg (h _ (by omega) (by omega))

/-- Apart from the bitmap, a descriptor is what it was. -/
theorem read_eq {d : EfiMemoryDescriptor} {place x : ℕ}
    (h : ∀ y, x ≤ y → y < x + 32 → ¬ InBitmap place y) : d.read place x = fun _ => d := by
  funext b
  have htype : readUnder place b x d.type.toUInt64 = d.type.toUInt64 :=
    readUnder_eq fun y hy hlt => h y hy (by omega)
  have hstart : readUnder place b (x + 8) d.physicalStart = d.physicalStart :=
    readUnder_eq fun y hy hlt => h y (by omega) (by omega)
  have hpages : readUnder place b (x + 24) d.numberOfPages = d.numberOfPages :=
    readUnder_eq fun y hy hlt => h y (by omega) (by omega)
  rw [EfiMemoryDescriptor.read, htype, hstart, hpages, UInt32.toUInt32_toUInt64]

/-- In the bitmap, as it is when it has just been filled, it is passed over. -/
theorem loopStart_read_fullBitmap (bt : BootTable) (d : EfiMemoryDescriptor) {place x : ℕ}
    (h : InBitmap place x) : bt.loopStart (d.read place x fullBitmap).type = none := by
  -- no type that has a loop has this bit
  have hbit : (d.read place x fullBitmap).type.toBitVec.getLsbD 3 = true := by
    have hread : bit (readUnder place fullBitmap x d.type.toUInt64) 3 = true := by
      rw [readUnder, bit_ofBits _ (by omega)]
      exact (if_pos h).trans (get_fullBitmap _)
    rw [EfiMemoryDescriptor.read, UInt64.toBitVec_toUInt32, BitVec.getLsbD_setWidth]
    exact hread
  have hne : ∀ v : UInt32, v.toBitVec.getLsbD 3 = false →
      (d.read place x fullBitmap).type ≠ v := by
    rintro v hv rfl
    rw [hbit] at hv
    cases hv
  rw [loopStart, if_neg (hne _ (by decide)), if_neg (hne _ (by decide)), if_neg]
  rintro (h | h | h | h | h)
  · exact hne _ (by decide) h
  · exact hne _ (by decide) h
  · exact hne _ (by decide) h
  · exact hne _ (by decide) h
  · exact hne _ (by decide) h

/-! ### The rounds of a memory map -/

/-- The rounds for one descriptor. -/
def descriptorRounds (bt : BootTable) (d : EfiMemoryDescriptor) : List Round :=
  match bt.loopStart d.type with
  | none => []
  | some start => (List.range' start.toNat (d.numberOfPages.toNat - start.toNat)).map
      fun i => (d.physicalStart, UInt64.ofNat i)

/-- A loop over a descriptor that stays what it is. -/
theorem markPages_eq (d : EfiMemoryDescriptor) (n : ℕ) (i : UInt64) (b : Bitmap)
    (hn : d.numberOfPages.toNat - i.toNat ≤ n) : markPages one (fun _ => d) n i b =
      markRounds one ((List.range' i.toNat (d.numberOfPages.toNat - i.toNat)).map
        fun j => (d.physicalStart, UInt64.ofNat j)) b := by
  induction n generalizing i b with
  | zero =>
    rw [Nat.le_zero.mp hn]
    rfl
  | succ n ih =>
    rw [markPages]
    by_cases hi : i < d.numberOfPages
    · have hlt := UInt64.lt_iff_toNat_lt.mp hi
      have hmax := d.numberOfPages.toNat_lt
      have hone : (1 : UInt64).toNat = 1 := rfl
      have hnext : (i + 1).toNat = i.toNat + 1 := by
        rw [UInt64.toNat_add, hone, Nat.mod_eq_of_lt (by omega)]
      obtain ⟨m, hm⟩ : ∃ m, d.numberOfPages.toNat - i.toNat = m + 1 :=
        ⟨d.numberOfPages.toNat - i.toNat - 1, by omega⟩
      rw [if_pos hi, hm, List.range'_succ, List.map_cons, markRounds_cons, UInt64.ofNat_toNat]
      congr 1
      funext b
      have hrest : d.numberOfPages.toNat - (i + 1).toNat = m := by omega
      rw [ih (i + 1) b (by omega), hrest, hnext]
    · have hge := UInt64.le_iff_toNat_le.mp (UInt64.not_lt.mp hi)
      rw [if_neg hi, Nat.sub_eq_zero_of_le hge]
      rfl

theorem markDescriptor_eq (d : EfiMemoryDescriptor) (b : Bitmap) :
    bt.markDescriptor one (fun _ => d) b = markRounds one (bt.descriptorRounds d) b := by
  unfold markDescriptor descriptorRounds
  cases bt.loopStart d.type with
  | none => rfl
  | some start =>
    have hmax := d.numberOfPages.toNat_lt
    exact markPages_eq d _ start b (by omega)

/-- The second loop over some descriptors and their indices, with the bitmap at `place`. -/
def markAll (bt : BootTable) (one : ℕ → UInt64) (place : ℕ)
    (l : List (EfiMemoryDescriptor × ℕ)) (b : Bitmap) : Except Fault Bitmap :=
  l.foldlM (fun b x => bt.markDescriptor one (x.1.read place (bt.descriptor x.2)) b) b

/-- With the bitmap in the first 32 pages of `d`, it overwrites the start of descriptor
`index`. -/
def Overwritten (bt : BootTable) (d : EfiMemoryDescriptor) (index : ℕ) : Prop :=
  InBitmap d.physicalStart.toNat (bt.descriptor index)

instance (bt : BootTable) (d : EfiMemoryDescriptor) (index : ℕ) :
    Decidable (bt.Overwritten d index) :=
  inferInstanceAs (Decidable (InBitmap _ _))

/-- Over descriptors that are what they were, the second loop is that of their rounds. -/
theorem markAll_eq {place : ℕ} {l : List (EfiMemoryDescriptor × ℕ)}
    (h : ∀ x ∈ l, x.1.read place (bt.descriptor x.2) = fun _ => x.1) (b : Bitmap) :
    bt.markAll one place l b = markRounds one (l.flatMap fun x => bt.descriptorRounds x.1) b := by
  induction l generalizing b with
  | nil => rfl
  | cons x l ih =>
    obtain ⟨hx, hl⟩ := List.forall_mem_cons.mp h
    rw [markAll, List.foldlM_cons, hx, List.flatMap_cons, markRounds_append, markDescriptor_eq]
    congr 1
    exact funext fun b => ih hl b

theorem descriptor_le_descriptor {i j : ℕ} (h : i ≤ j) : bt.descriptor i ≤ bt.descriptor j :=
  Nat.add_le_add_left (Nat.mul_le_mul_right _ h) _

/-- Where no descriptor starts below the bitmap, those that start in it are passed over, as
nothing has been marked yet, and the others are what they were. -/
theorem markAll_of_le {d : EfiMemoryDescriptor} {l : List EfiMemoryDescriptor} {n : ℕ}
    (h : d.physicalStart.toNat ≤ bt.descriptor n) :
    bt.markAll one d.physicalStart.toNat (l.zipIdx n) fullBitmap =
      markRounds one (((l.zipIdx n).filter fun x => ¬ bt.Overwritten d x.2).flatMap
        fun x => bt.descriptorRounds x.1) fullBitmap := by
  induction l generalizing n with
  | nil => rfl
  | cons e l ih =>
    by_cases hover : bt.Overwritten d n
    · have hskip : bt.markDescriptor one (e.read d.physicalStart.toNat (bt.descriptor n))
          fullBitmap = .ok fullBitmap := by
        rw [markDescriptor, loopStart_read_fullBitmap bt e hover]
      rw [List.zipIdx_cons, List.filter_cons_of_neg (by simpa using hover), markAll,
        List.foldlM_cons, hskip]
      exact ih (h.trans (descriptor_le_descriptor (Nat.le_succ n)))
    · have hbehind : ∀ x ∈ (e :: l).zipIdx n, ∀ y, bt.descriptor x.2 ≤ y →
          ¬ InBitmap d.physicalStart.toNat y := by
        intro x hx y hy hin
        obtain ⟨hle, -⟩ := List.mem_zipIdx_iff_le_and_getElem?_sub.mp hx
        have hn : bt.descriptor n ≤ bt.descriptor x.2 := descriptor_le_descriptor hle
        exact hover ⟨h, hn.trans_lt (hy.trans_lt hin.2)⟩
      rw [List.filter_eq_self.mpr fun x hx => by
        simpa using fun hx' : bt.Overwritten d x.2 => hbehind x hx _ le_rfl hx']
      exact markAll_eq (fun x hx => read_eq fun y hy _ => hbehind x hx y hy) _

/-- The rounds of the second loop after descriptor `k` has been selected, if it reads the
descriptors as they were. -/
def allRounds (bt : BootTable) (k : ℕ) : List Round :=
  (bt.memTable.modify k fun d => { d with type := 0x11 }).flatMap bt.descriptorRounds

/-- The rounds of the descriptors that the bitmap, in the first pages of `d`, has not
overwritten. -/
def rounds (bt : BootTable) (k : ℕ) (d : EfiMemoryDescriptor) : List Round :=
  ((bt.memTable.modify k fun d => { d with type := 0x11 }).zipIdx.filter
    fun x => ¬ bt.Overwritten d x.2).flatMap fun x => bt.descriptorRounds x.1

/-- The index of the first page that is marked in descriptor `j`, if any is. -/
def firstFree (bt : BootTable) (k j : ℕ) (e : EfiMemoryDescriptor) : Option UInt64 :=
  if k = j then some requiredPages else bt.loopStart e.type

theorem mem_descriptorRounds {d : EfiMemoryDescriptor} {r : Round} :
    r ∈ bt.descriptorRounds d ↔ ∃ a, bt.loopStart d.type = some a ∧
      r.1 = d.physicalStart ∧ a ≤ r.2 ∧ r.2 < d.numberOfPages := by
  unfold descriptorRounds
  cases hstart : bt.loopStart d.type with
  | none => simp
  | some a =>
    have hd := d.numberOfPages.toNat_lt
    simp only [List.mem_map, List.mem_range'_1, Option.some.injEq, exists_eq_left',
      UInt64.le_iff_toNat_le, UInt64.lt_iff_toNat_lt]
    constructor
    · rintro ⟨i, hi, rfl⟩
      rw [UInt64.toNat_ofNat', Nat.mod_eq_of_lt (by omega)]
      exact ⟨rfl, by omega⟩
    · rintro ⟨hps, hge, hlt⟩
      exact ⟨r.2.toNat, by omega, Prod.ext hps.symm UInt64.ofNat_toNat⟩

/-- The loop of one descriptor ends and marks none of some pages, whatever the bitmap was,
if its rounds are safe and clear none of them. -/
theorem markDescriptor_keeps_iff (one : ℕ → UInt64) {d : EfiMemoryDescriptor} {a : UInt64}
    (hstart : bt.loopStart d.type = some a) {P : ℕ → Prop} :
    (∀ b, ∃ b', bt.markDescriptor one (fun _ => d) b = .ok b' ∧
        ∀ p, P p → get b p = true → get b' p = true) ↔
      ∀ i, a ≤ i → i < d.numberOfPages → SafeRound (d.physicalStart, i) ∧
        ∀ p, Clears one (roundPage (d.physicalStart, i)) p → ¬ P p := by
  have hround : ∀ i, a ≤ i → i < d.numberOfPages →
      (d.physicalStart, i) ∈ bt.descriptorRounds d := fun i hle hlt =>
    mem_descriptorRounds.mpr ⟨a, hstart, rfl, hle, hlt⟩
  constructor
  -- from a full bitmap what is cleared is free
  · intro h i hle hlt
    obtain ⟨b', hb', hkept⟩ := h fullBitmap
    rw [markDescriptor_eq] at hb'
    refine ⟨(markRounds_ok_iff _ _ _).mp ⟨b', hb'⟩ _ (hround i hle hlt), fun p hclear hp => ?_⟩
    have hfree := (get_markRounds hb' p).mpr (.inr ⟨_, hround i hle hlt, hclear⟩)
    rw [hkept _ hp (get_fullBitmap _)] at hfree
    cases hfree
  -- and no round clears what is to be kept
  · intro h b
    have hrounds : ∀ r ∈ bt.descriptorRounds d,
        SafeRound r ∧ ∀ p, Clears one (roundPage r) p → ¬ P p := by
      intro r hr
      obtain ⟨a', ha', hps, hle, hlt⟩ := mem_descriptorRounds.mp hr
      obtain rfl := Option.some.inj (hstart.symm.trans ha')
      obtain ⟨start, i⟩ := r
      obtain rfl : start = d.physicalStart := hps
      exact h i hle hlt
    obtain ⟨b', hb'⟩ := (markRounds_ok_iff one _ b).mpr fun r hr => (hrounds r hr).1
    refine ⟨b', by rw [markDescriptor_eq, hb'], fun p hp hset => ?_⟩
    rw [← Bool.not_eq_false]
    intro hfree
    rcases (get_markRounds hb' p).mp hfree with hb | ⟨r, hr, hclear⟩
    · rw [hset] at hb
      cases hb
    · exact (hrounds r hr).2 p hclear hp

/-- The descriptors of the second loop. -/
theorem getElem?_modify {k j : ℕ} {e : EfiMemoryDescriptor} :
    (bt.memTable.modify k fun d => { d with type := 0x11 })[j]? = some e ↔
      ∃ e₀, bt.memTable[j]? = some e₀ ∧ e = if k = j then { e₀ with type := 0x11 } else e₀ := by
  rw [List.getElem?_modify]
  cases bt.memTable[j]? with
  | none => simp
  | some e₀ => simp [eq_comm]

/-- The selected descriptor has type 0x11 in the second loop. -/
theorem mem_descriptorRounds_modify {k j : ℕ} {e : EfiMemoryDescriptor} {r : Round} :
    r ∈ bt.descriptorRounds (if k = j then { e with type := 0x11 } else e) ↔
      ∃ a, bt.firstFree k j e = some a ∧ r.1 = e.physicalStart ∧ a ≤ r.2 ∧
        r.2 < e.numberOfPages := by
  rw [mem_descriptorRounds, firstFree]
  split
  · rfl
  · rfl

theorem mem_allRounds {k : ℕ} {r : Round} :
    r ∈ bt.allRounds k ↔ ∃ j e a, bt.memTable[j]? = some e ∧ bt.firstFree k j e = some a ∧
      r.1 = e.physicalStart ∧ a ≤ r.2 ∧ r.2 < e.numberOfPages := by
  simp only [allRounds, List.mem_flatMap]
  constructor
  · rintro ⟨e, hmem, hr⟩
    obtain ⟨j, hj⟩ := List.mem_iff_getElem?.mp hmem
    obtain ⟨e₀, he₀, rfl⟩ := getElem?_modify.mp hj
    obtain ⟨a, ha⟩ := mem_descriptorRounds_modify.mp hr
    exact ⟨j, e₀, a, he₀, ha⟩
  · rintro ⟨j, e, a, he, ha⟩
    exact ⟨_, List.mem_iff_getElem?.mpr ⟨j, getElem?_modify.mpr ⟨e, he, rfl⟩⟩,
      mem_descriptorRounds_modify.mpr ⟨a, ha⟩⟩

theorem mem_rounds {k : ℕ} {d : EfiMemoryDescriptor} {r : Round} :
    r ∈ bt.rounds k d ↔ ∃ j e a, bt.memTable[j]? = some e ∧ ¬ bt.Overwritten d j ∧
      bt.firstFree k j e = some a ∧ r.1 = e.physicalStart ∧ a ≤ r.2 ∧ r.2 < e.numberOfPages := by
  simp only [rounds, List.mem_flatMap, List.mem_filter, decide_not, Bool.not_eq_true',
    decide_eq_false_iff_not]
  constructor
  · rintro ⟨⟨e, j⟩, ⟨hmem, hover⟩, hr⟩
    obtain ⟨e₀, he₀, rfl⟩ : ∃ e₀, bt.memTable[j]? = some e₀ ∧
        e = if k = j then { e₀ with type := 0x11 } else e₀ :=
      getElem?_modify.mp (List.mem_zipIdx_iff_getElem?.mp hmem)
    obtain ⟨a, ha⟩ := mem_descriptorRounds_modify.mp hr
    exact ⟨j, e₀, a, he₀, hover, ha⟩
  · rintro ⟨j, e, a, he, hover, ha⟩
    exact ⟨(_, j), ⟨List.mem_zipIdx_iff_getElem?.mpr (getElem?_modify.mpr ⟨e, he, rfl⟩), hover⟩,
      mem_descriptorRounds_modify.mpr ⟨a, ha⟩⟩

/-! ### The memory map and the bitmap -/

/-- The descriptors stand one behind the other: `mem_desc_size` is the size of
`efi_memory_descriptor` at least. -/
def Spaced (bt : BootTable) : Prop := 40 ≤ bt.memDescSize.toNat

instance (bt : BootTable) : Decidable bt.Spaced := inferInstanceAs (Decidable (_ ≤ _))

/-- `mem_desc_count * mem_desc_size`. -/
def mapBytes (bt : BootTable) : ℕ := bt.memTable.length * bt.memDescSize.toNat

/-- The memory map begins below the first 32 pages of `d` and runs into them. -/
def MapRunsInto (bt : BootTable) (d : EfiMemoryDescriptor) : Prop :=
  bt.memTablePointer.toNat < d.physicalStart.toNat ∧
    d.physicalStart.toNat < bt.memTablePointer.toNat + bt.mapBytes

instance (bt : BootTable) (d : EfiMemoryDescriptor) : Decidable (bt.MapRunsInto d) :=
  inferInstanceAs (Decidable (_ ∧ _))

/-- Below the bitmap all descriptors are what they were. -/
theorem Spaced.not_inBitmap (hsize : bt.Spaced) {place : ℕ}
    (hbelow : bt.memTablePointer.toNat + bt.mapBytes ≤ place) {j y : ℕ}
    (hj : j < bt.memTable.length) (hy : y < bt.descriptor j + 32) : ¬ InBitmap place y := by
  intro hin
  have hplace := hin.1
  have hlast : (j + 1) * bt.memDescSize.toNat ≤ bt.mapBytes := Nat.mul_le_mul_right _ hj
  rw [Nat.add_mul, Nat.one_mul] at hlast
  rw [Spaced] at hsize
  rw [descriptor] at hy
  omega

/-- With a best fit the result is the bitmap of its rounds, if the map does not run into
the bitmap from below. -/
theorem buildBitmap_of_bestFit {k : ℕ} {d : EfiMemoryDescriptor} (hk : bt.BestFit k d)
    (hsize : bt.Spaced) (hmap : ¬ bt.MapRunsInto d) :
    bt.buildBitmap one = some <$> markRounds one (bt.rounds k d) fullBitmap := by
  obtain ⟨hmmap, ⟨-, hnone⟩ | ⟨hpages, d', hbest, hplace⟩⟩ := bt.select_spec
  · exact absurd hk.candidate (hnone d (List.mem_of_getElem? hk.get))
  obtain ⟨rfl, rfl⟩ := hbest.unique hk
  have hbuild : bt.buildBitmap one = some <$> bt.markAll one d'.physicalStart.toNat
      (bt.memTable.modify bt.select.reservedIndex fun d => { d with type := 0x11 }).zipIdx
      fullBitmap := by
    rw [buildBitmap]
    simp only [if_neg hpages, reserve, hmmap, hplace]
    rfl
  rw [hbuild]
  congr 1
  by_cases hle : d'.physicalStart.toNat ≤ bt.memTablePointer.toNat
  · exact markAll_of_le (hle.trans (Nat.le_add_right _ _))
  · -- the whole map lies below the bitmap
    have hbelow : bt.memTablePointer.toNat + bt.mapBytes ≤ d'.physicalStart.toNat :=
      not_lt.mp fun hlt => hmap ⟨not_le.mp hle, hlt⟩
    have hlt : ∀ x ∈ (bt.memTable.modify bt.select.reservedIndex
        fun d => { d with type := 0x11 }).zipIdx, x.2 < bt.memTable.length := by
      intro x hx
      simpa using (List.mem_zipIdx' hx).1
    have hover : ∀ x ∈ (bt.memTable.modify bt.select.reservedIndex
        fun d => { d with type := 0x11 }).zipIdx, ¬ bt.Overwritten d' x.2 := fun x hx =>
      hsize.not_inBitmap hbelow (hlt x hx) (Nat.lt_add_of_pos_right (by omega))
    rw [rounds, List.filter_eq_self.mpr fun x hx => by simpa using hover x hx]
    exact markAll_eq (fun x hx => read_eq fun y _ hy =>
      hsize.not_inBitmap hbelow (hlt x hx) hy) _

/-- With a best fit there is a bitmap, if the loops end. -/
theorem buildBitmap_isSome {k : ℕ} {d : EfiMemoryDescriptor} (hk : bt.BestFit k d)
    {r : Option Bitmap} (hr : bt.buildBitmap one = .ok r) : ∃ b, r = some b := by
  obtain ⟨-, ⟨-, hnone⟩ | ⟨hpages, -⟩⟩ := bt.select_spec
  · exact absurd hk.candidate (hnone d (List.mem_of_getElem? hk.get))
  · rw [buildBitmap] at hr
    simp only [if_neg hpages] at hr
    generalize (reserve bt.select).zipIdx.foldlM (m := Except Fault) _ fullBitmap = x at hr
    cases x with
    | error e => cases hr
    | ok b => exact ⟨b, (Except.ok.inj hr).symm⟩

/-- Without a candidate `page_allocator_init` returns -1. -/
theorem buildBitmap_of_none (h : ∀ d ∈ bt.memTable, ¬ Candidate d) :
    bt.buildBitmap one = .ok none := by
  obtain ⟨-, ⟨hpages, -⟩ | ⟨-, d, hbest, -⟩⟩ := bt.select_spec
  · exact if_pos hpages
  · exact absurd hbest.candidate (h d (List.mem_of_getElem? hbest.get))

theorem map_some_eq_ok_iff {x : Except Fault Bitmap} :
    (∃ r, some <$> x = .ok r) ↔ ∃ b, x = .ok b := by
  cases x with
  | error e => simp
  | ok b => simp

end BootTable

end Betelgeuse
