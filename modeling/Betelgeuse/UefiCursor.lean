/-
Tables behind the first page of the pool.

`init_virtual_mapping` can leave a table behind the first page of the pool.  That page is
handed out all the same, and the invariant of the pool is lost.  What goes on as before
are the variables (`Cursor`), and a page that is handed out is linked afterwards, whatever
else it was before (`Cursor.block`).  So once there is a table behind some page, there
always is one (`Cursor.run_late`).
-/
import Betelgeuse.UefiTree

open PageTree

namespace Betelgeuse

/-- A table is linked that lies between two addresses. -/
def Mapping.Late (s : Mapping) (root : Frame) (start finish : ℕ) : Prop :=
  ∃ π f, s.table root π = some f ∧ start ≤ f.addr.toNat ∧ f.addr.toNat + 4096 ≤ finish

theorem Mapping.Late.mono {s : Mapping} {root : Frame} {start start' finish finish' : ℕ}
    (h : s.Late root start' finish') (hstart : start ≤ start') (hfinish : finish' ≤ finish) :
    s.Late root start finish := by
  obtain ⟨π, f, hf, hle, hle'⟩ := h
  exact ⟨π, f, hf, hstart.trans hle, hle'.trans hfinish⟩

theorem tablesNeeded_le (mem : UInt64 → UInt64) (f : Frame) (i : Fin 512) (is : List (Fin 512)) :
    tablesNeeded mem f (i :: is) ≤ is.length := by
  induction is generalizing f i with
  | nil => exact le_rfl
  | cons j is ih =>
    unfold tablesNeeded
    split
    · exact (ih _ j).trans (Nat.le_succ _)
    · exact le_rfl
    · exact le_rfl

namespace Cursor

variable {root f g new : Frame} {newMap pageCount flags : UInt64} {s s' : Mapping} {i j : Fin 512}
  {is π : List (Fin 512)}

/-- The words after a table has been taken from the pool. -/
theorem reuses (h : Cursor root newMap pageCount s) (hflags : Mapping.LinkFlags flags)
    (habsent : word s.mem f i &&& presentFlag = 0) (hnew : s.nextAvailableMappingPage = new.addr)
    (hword : ∀ g j, word s'.mem g j = if g = f ∧ j = i then flags ||| new.addr
      else if g = new then 0 else word s.mem g j) :
    Reuses decode (word s.mem) (word s'.mem) root f i new where
  agree g j hne hslot := by rw [hword, if_neg hslot, if_neg hne]
  absent m := decode_eq_absent habsent
  link m hm := by
    rw [hword, if_pos ⟨rfl, rfl⟩]
    exact hflags.decode hm new
  ne_root := by
    rintro rfl
    have hbelow := h.root_below
    rw [hnew] at hbelow
    omega

/-- There is no large page behind a page that has been taken, even if it is the table that
links it. -/
theorem noLargePageOn_new {mem : UInt64 → UInt64} (hflags : Mapping.LinkFlags flags)
    (hword : ∀ j, word mem new j = if new = f ∧ j = i then flags ||| new.addr else 0)
    (hcase : f ≠ new ∨ is.length ≤ 1) : NoLargePageOn mem new (j :: is) := by
  rcases hcase with hne | hlen
  · refine noLargePageOn_of_empty fun j => ?_
    rw [hword, if_neg fun heq => hne heq.1.symm]
  · rcases is with _ | ⟨p, _ | ⟨q, is⟩⟩
    · exact trivial
    · refine ⟨?_, fun _ _ => trivial⟩
      rw [hword]
      split
      · rw [hflags.decode (Nat.succ_ne_zero _)]
        exact nofun
      · rw [decode_zero_word]
        exact nofun
    · simp at hlen

/-- One block of `map_page`.  If it takes a page, that page is linked. -/
theorem block (h : Cursor root newMap pageCount s) (hflags : Mapping.LinkFlags flags)
    (hπ : s.table root π = some f) (hlen : π.length + is.length = 2)
    (hlarge : NoLargePageOn s.mem f (i :: j :: is))
    (hneed : tablesNeeded s.mem f (i :: j :: is) ≤ s.availableMappingPageCount.toNat)
    (hs' : s.linkTable f.addr (UInt64.ofNat i) flags = s') :
    Cursor root newMap pageCount s' ∧
      s.nextAvailableMappingPage.toNat ≤ s'.nextAvailableMappingPage.toNat ∧
      (s' = s ∨ s'.Late root s.nextAvailableMappingPage.toNat
        (newMap.toNat + 4096 * pageCount.toNat)) ∧
      ∃ g, s'.read f.addr (UInt64.ofNat i) &&& addrMask = g.addr ∧
        (π.length ≤ 1 → s'.table root (π ++ [i]) = some g ∧ NoLargePageOn s'.mem g (j :: is) ∧
          tablesNeeded s'.mem g (j :: is) ≤ s'.availableMappingPageCount.toNat) := by
  by_cases habsent : word s.mem f i &&& presentFlag = 0
  · rw [tablesNeeded_of_absent (decode_eq_absent habsent)] at hneed
    obtain ⟨new, hnew, hcursor, hword, hnext, havail⟩ := h.linkTable habsent (by omega) hs'
    have hreuse := h.reuses hflags habsent hnew hword
    have hcount := hcursor.count
    have hlink : ∀ m, m ≠ 0 → decode m (word s'.mem f i) = .table new := hreuse.link
    obtain ⟨τ, hτ⟩ := hreuse.exists_path hπ (by omega)
    refine ⟨hcursor, by omega, .inr ⟨τ, new, hτ, by rw [hnew], by rw [hnew] at hnext; omega⟩, new,
      congrArg Frame.addr (decode_eq_table.mp (hlink 1 one_ne_zero)).2.2.2,
      fun hupper => ⟨?_, ?_, ?_⟩⟩
    · -- above the table there is the root at most
      refine tableAt_concat.mpr ⟨f, 3 - π.length, by omega,
        hreuse.tableAt_eq hπ fun π' i' ρ heq hnew' => ?_, hlink _ (by omega)⟩
      have hlenπ := congrArg List.length heq
      rw [List.length_append, List.length_cons] at hlenπ
      obtain rfl : π' = [] := List.length_eq_zero_iff.mp (by omega)
      rw [tableAt_nil] at hnew'
      exact hreuse.ne_root (Option.some.inj hnew').symm
    · refine noLargePageOn_new hflags (fun j => by rw [hword, if_pos rfl]) ?_
      -- the table that links it is the new one only below the root
      by_contra hcase
      push Not at hcase
      obtain rfl : π = [] := List.length_eq_zero_iff.mp (by omega)
      rw [Mapping.table, tableAt_nil] at hπ
      exact hreuse.ne_root (hcase.1 ▸ (Option.some.inj hπ).symm)
    · have hle := tablesNeeded_le s'.mem new j is
      omega
  · obtain ⟨hleaf, hnextLarge⟩ := hlarge
    have hsame : s' = s := hs'.symm.trans (Mapping.linkTable_present habsent)
    subst hsame
    cases hdecode : decode (is.length + 1) (word s'.mem f i) with
    | absent => exact absurd (decode_absent_iff.mp hdecode) habsent
    | leaf => exact absurd hdecode hleaf
    | table g =>
      rw [tablesNeeded_of_table hdecode] at hneed
      refine ⟨h, le_rfl, .inl rfl, g, congrArg Frame.addr (decode_eq_table.mp hdecode).2.2.2,
        fun _ => ⟨?_, hnextLarge g hdecode, hneed⟩⟩
      exact tableAt_concat.mpr ⟨f, is.length + 1, by omega, hπ, hdecode⟩

theorem setEntry (h : Cursor root newMap pageCount s) (f : Frame) (i : Fin 512)
    (physAddr : UInt64) : Cursor root newMap pageCount (s.setEntry f i physAddr) := by
  unfold Mapping.setEntry
  split
  · exact ⟨h.pml4, h.root_below, h.aligned, h.le_next, h.count, h.end_le⟩
  · exact h

end Cursor

/-- The last step of `map_page` takes no table away. -/
theorem Mapping.table_setEntry {s : Mapping} {root g : Frame} {π : List (Fin 512)}
    (hπ : s.table root π = some g) (f : Frame) (i : Fin 512) (physAddr : UInt64) :
    (s.setEntry f i physAddr).table root π = some g := by
  by_cases habsent : word s.mem f i &&& presentFlag = 0
  · refine tableAt_of_agree (fun m => decode_eq_absent habsent) hπ fun _ i' _ k _ _ hslot => ?_
    rw [Pool.word_setEntry s f i physAddr habsent, if_neg hslot]
  · rwa [Pool.setEntry_present habsent]

theorem Mapping.next_setEntry (s : Mapping) (f : Frame) (i : Fin 512) (physAddr : UInt64) :
    (s.setEntry f i physAddr).nextAvailableMappingPage = s.nextAvailableMappingPage := by
  unfold Mapping.setEntry
  split
  · rfl
  · rfl

namespace Cursor

variable {root : Frame} {newMap pageCount : UInt64} {s : Mapping} {start finish : ℕ}

/-- One call of `map_page`: a table that lies behind some page stays linked, or another
one is linked there. -/
theorem mapPage (h : Cursor root newMap pageCount s) {c : MapCall} (hc : c.Fits .mapAll root s)
    (hfinish : newMap.toNat + 4096 * pageCount.toNat ≤ finish) :
    Cursor root newMap pageCount (s.mapPage c.physAddr c.vaAddr).2 ∧
      s.nextAvailableMappingPage.toNat ≤
        (s.mapPage c.physAddr c.vaAddr).2.nextAvailableMappingPage.toNat ∧
      (start ≤ s.nextAvailableMappingPage.toNat →
        s.Late root start finish → (s.mapPage c.physAddr c.vaAddr).2.Late root start finish) := by
  have hlow : Mapping.LinkFlags (presentFlag ||| writableFlag) := ⟨by decide, by decide, by decide⟩
  have huser : Mapping.LinkFlags (presentFlag ||| writableFlag ||| userAccessFlag) :=
    ⟨by decide, by decide, by decide⟩
  obtain ⟨h₁, hle₁, hlate₁, f₁, hread₁, hupper₁⟩ := h.block hlow (π := []) (tableAt_nil ..) rfl
    hc.noLargePage hc.needed rfl
  obtain ⟨hπ₁, hlarge₁, hneed₁⟩ := hupper₁ (Nat.zero_le _)
  obtain ⟨h₂, hle₂, hlate₂, f₂, hread₂, hupper₂⟩ := h₁.block huser hπ₁ rfl hlarge₁ hneed₁ rfl
  obtain ⟨hπ₂, hlarge₂, hneed₂⟩ := hupper₂ le_rfl
  obtain ⟨h₃, hle₃, hlate₃, f₃, hread₃, -⟩ := h₂.block huser hπ₂ rfl hlarge₂ hneed₂ rfl
  obtain ⟨hs', -⟩ := Mapping.mapPage_of_blocks (s := s) (c := c) h.pml4 h₁.pml4 rfl
    hread₁ rfl hread₂
    rfl hread₃
  rw [hs', Mapping.next_setEntry]
  refine ⟨h₃.setEntry _ _ _, (hle₁.trans hle₂).trans hle₃, fun hstart hlate => ?_⟩
  -- each block changes nothing, or links the page that it takes
  have hnext : ∀ {t t' : Mapping}, start ≤ t.nextAvailableMappingPage.toNat →
      (t' = t ∨ t'.Late root t.nextAvailableMappingPage.toNat
        (newMap.toNat + 4096 * pageCount.toNat)) →
      t.Late root start finish → t'.Late root start finish := by
    rintro t t' hle (rfl | hlate') hlate
    · exact hlate
    · exact hlate'.mono hle hfinish
  obtain ⟨π, f, hf, hin⟩ := hnext ((hstart.trans hle₁).trans hle₂) hlate₃
    (hnext (hstart.trans hle₁) hlate₂ (hnext hstart hlate₁ hlate))
  exact ⟨π, f, Mapping.table_setEntry hf _ _ _, hin⟩

/-- A run of `map_page` calls. -/
theorem run_late (hfinish : newMap.toNat + 4096 * pageCount.toNat ≤ finish) :
    ∀ {calls : List MapCall} {s : Mapping}, Cursor root newMap pageCount s →
    (∀ before c after, calls = before ++ c :: after → c.Fits .mapAll root (s.run before)) →
    start ≤ s.nextAvailableMappingPage.toNat →
    s.Late root start finish → (s.run calls).Late root start finish := by
  intro calls
  induction calls with
  | nil => exact fun _ _ _ hlate => hlate
  | cons c calls ih =>
    intro s h hcalls hstart hlate
    obtain ⟨h', hle, hlate'⟩ := h.mapPage (hcalls [] c calls rfl) hfinish
    exact ih h' (fun before c' after heq => hcalls (c :: before) c' after (by rw [heq]; rfl))
      (hstart.trans hle) (hlate' hstart hlate)

end Cursor

end Betelgeuse
