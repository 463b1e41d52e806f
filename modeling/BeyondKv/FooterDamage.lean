/-
# Opening with a damaged footer

A footer repeats what its file's records say, so a file whose footer is damaged
could be scanned instead. The reader does so only if the damage reaches the magic:
a footer with its magic in place and anything else wrong makes the open fail.
`open_altered_footer_iff` is exact.
-/
import BeyondKv.Restart

namespace BeyondKv

/-! ## Opening is loading every file in order -/

section loading
variable (P : Prims) (d : Disk)

theorem loadAllSealed_append (fs gs : List (Nat × Nat)) (idx : NsIndex) :
    loadAllSealed P d (fs ++ gs) idx = (loadAllSealed P d fs idx).bind (loadAllSealed P d gs) := by
  induction fs generalizing idx with
  | nil => rfl
  | cons f fs ih =>
    obtain ⟨id, ino⟩ := f
    rw [List.cons_append, loadAllSealed, loadAllSealed]
    cases loadSealed P idx id (d.inodes ino) with
    | error e => rfl
    | ok idx' => exact ih idx'

/-- The index after an open: the highest file is loaded like the others, by its footer or
by its records. -/
theorem openNamespace_index {lower : List (Nat × Nat)} {id ino : Nat}
    (hfiles : d.listDataFiles = lower ++ [(id, ino)]) (hid : id + 1 ≤ u32Max) :
    (openNamespace P d).map (fun r => r.1.index) = loadAllSealed P d d.listDataFiles .empty := by
  rw [hfiles, loadAllSealed_append]
  unfold openNamespace
  rw [hfiles, List.getLast?_concat]
  simp only [List.dropLast_concat]
  cases loadAllSealed P d lower .empty with
  | error e => rfl
  | ok idx₀ =>
    simp only [loadAllSealed, loadSealed, rebuildFromRecords, replayActive, bind, Except.bind,
      pure, Except.pure]
    cases readFooter P (d.inodes ino) with
    | error e => rfl
    | ok footer =>
      cases footer with
      | none => rfl
      | some es => simp only [Nat.not_lt.mpr hid, if_false]; rfl

/-- The loop over the files with `load` in place of what the file `id` itself says. -/
def loadAs (id : Nat) (load : NsIndex → NsIndex) :
    List (Nat × Nat) → NsIndex → Except EngineError NsIndex
  | [], index => .ok index
  | (fileId, ino) :: rest, index => do
    let index ← if fileId = id then .ok (load index) else loadSealed P index fileId (d.inodes ino)
    loadAs id load rest index

variable {P d}

theorem loadAs_eq_loadAllSealed {id : Nat} {load : NsIndex → NsIndex} {fs : List (Nat × Nat)}
    (h : ∀ f ∈ fs, f.1 = id → ∀ idx, loadSealed P idx f.1 (d.inodes f.2) = .ok (load idx))
    (idx : NsIndex) : loadAs P d id load fs idx = loadAllSealed P d fs idx := by
  induction fs generalizing idx with
  | nil => rfl
  | cons f fs ih =>
    obtain ⟨fileId, ino⟩ := f
    have hrest : ∀ idx, loadAs P d id load fs idx = loadAllSealed P d fs idx :=
      ih fun f hf => h f (List.mem_cons_of_mem _ hf)
    rw [loadAs, loadAllSealed]
    by_cases hid : fileId = id
    · rw [if_pos hid, h (fileId, ino) (List.mem_cons_self ..) hid]
      exact hrest _
    · rw [if_neg hid]
      cases loadSealed P idx fileId (d.inodes ino) with
      | error e => rfl
      | ok idx' => exact hrest idx'

/-- If every other file loads, so does the whole directory. -/
theorem loadAs_ok {id : Nat} (load : NsIndex → NsIndex) {fs : List (Nat × Nat)}
    (h : ∀ f ∈ fs, f.1 ≠ id → ∃ r, readFooter P (d.inodes f.2) = .ok r) (idx : NsIndex) :
    ∃ idx', loadAs P d id load fs idx = .ok idx' := by
  induction fs generalizing idx with
  | nil => exact ⟨idx, rfl⟩
  | cons f fs ih =>
    obtain ⟨fileId, ino⟩ := f
    have hrest := ih fun f hf => h f (List.mem_cons_of_mem _ hf)
    rw [loadAs]
    by_cases hid : fileId = id
    · rw [if_pos hid]
      exact hrest (load idx)
    · obtain ⟨r, hr⟩ := h (fileId, ino) (List.mem_cons_self ..) hid
      simp only [if_neg hid, loadSealed, hr, bind, Except.bind]
      cases r with
      | none => exact hrest _
      | some es => exact hrest _

/-- A file that cannot be read as footer or records makes the loop fail. -/
theorem loadAllSealed_of_error {id ino : Nat} {e : EngineError} {fs : List (Nat × Nat)}
    (hmem : (id, ino) ∈ fs) (herr : readFooter P (d.inodes ino) = .error e) (idx : NsIndex) :
    ∃ e', loadAllSealed P d fs idx = .error e' := by
  induction fs generalizing idx with
  | nil => cases hmem
  | cons f fs ih =>
    obtain ⟨fileId, ino'⟩ := f
    rw [loadAllSealed]
    rcases List.mem_cons.mp hmem with heq | hmem
    · cases heq
      exact ⟨e, by simp only [loadSealed, herr, bind, Except.bind]⟩
    · cases loadSealed P idx fileId (d.inodes ino') with
      | error e' => exact ⟨e', rfl⟩
      | ok idx' => exact ih hmem idx'

end loading

/-- The names of a directory are distinct. -/
theorem eq_of_mem_listDataFiles {d : Disk} {id ino ino' : Nat} (h : (id, ino) ∈ d.listDataFiles)
    (h' : (id, ino') ∈ d.listDataFiles) : ino = ino' := by
  simp only [Disk.listDataFiles, Std.ExtTreeMap.mem_toList_iff_getElem?_eq_some] at h h'
  exact Option.some.inj (h.symm.trans h')

/-! ## An altered footer -/

/-- What the file `id` holds is recovered as a scan of its records would recover it, and the
directory opens, if the altered file no longer ends in the magic, or if it still ends in a
footer that reads and says what the records say; not otherwise. -/
theorem open_altered_footer_iff (P : Prims) {d : Disk} {lower : List (Nat × Nat)}
    {top : Nat × Nat} {id ino : Nat} (hfiles : d.listDataFiles = lower ++ [top])
    (hroom : top.1 + 1 ≤ u32Max) (hmem : (id, ino) ∈ d.listDataFiles)
    (hothers : ∀ f ∈ d.listDataFiles, f.1 ≠ id → ∃ r, readFooter P (d.inodes f.2) = .ok r) :
    (∃ o d' idx, openNamespace P d = .ok (o, d')
        ∧ loadAs P d id (rebuildFromRecords P (d.inodes ino) id) d.listDataFiles .empty = .ok idx
        ∧ ∀ k, o.index.at k = idx.at k)
      ↔ (d.inodes ino).length < footerTrailerLen ∨ ¬ magicBytes <:+ d.inodes ino
        ∨ ∃ es idx idx', readFooter P (d.inodes ino) = .ok (some es)
          ∧ loadAs P d id (fun i => applyFooterEntries i id es) d.listDataFiles .empty = .ok idx'
          ∧ loadAs P d id (rebuildFromRecords P (d.inodes ino) id) d.listDataFiles .empty = .ok idx
          ∧ ∀ k, idx'.at k = idx.at k := by
  have hindex := openNamespace_index P d hfiles hroom
  have hscan := loadAs_ok (rebuildFromRecords P (d.inodes ino) id) hothers .empty
  have hself : ∀ {f : Nat × Nat}, f ∈ d.listDataFiles → f.1 = id → f.2 = ino := by
    rintro ⟨id', ino'⟩ hf rfl
    exact eq_of_mem_listDataFiles hf hmem
  -- the three verdicts of the footer reader
  rw [← or_assoc, ← readFooter_eq_none_iff P]
  cases hfoot : readFooter P (d.inodes ino) with
  | error e =>
    obtain ⟨e', he'⟩ := loadAllSealed_of_error hmem hfoot .empty
    constructor
    · rintro ⟨o, d', idx, hopen, -, -⟩
      rw [he', hopen] at hindex
      cases hindex
    · rintro (h | ⟨es, -, -, h, -⟩) <;> cases h
  | ok footer =>
    cases footer with
    | none =>
      refine iff_of_true ?_ (.inl rfl)
      obtain ⟨idx, hidx⟩ := hscan
      have hall : loadAllSealed P d d.listDataFiles .empty = .ok idx := by
        rw [← hidx]
        refine (loadAs_eq_loadAllSealed (fun f hf hid idx => ?_) .empty).symm
        simp only [loadSealed, hself hf hid, hfoot, hid, bind, Except.bind, pure, Except.pure]
      rw [hall] at hindex
      cases hopen : openNamespace P d with
      | error e => rw [hopen] at hindex; cases hindex
      | ok r =>
        rw [hopen] at hindex
        cases hindex
        exact ⟨r.1, r.2, _, rfl, hidx, fun _ => rfl⟩
    | some es =>
      obtain ⟨idx', hidx'⟩ := loadAs_ok (fun i => applyFooterEntries i id es) hothers .empty
      have hall : loadAllSealed P d d.listDataFiles .empty = .ok idx' := by
        rw [← hidx']
        refine (loadAs_eq_loadAllSealed (fun f hf hid idx => ?_) .empty).symm
        simp only [loadSealed, hself hf hid, hfoot, hid, bind, Except.bind, pure, Except.pure]
      rw [hall] at hindex
      constructor
      · rintro ⟨o, d', idx, hopen, hidx, hsame⟩
        rw [hopen] at hindex
        cases hindex
        exact .inr ⟨es, idx, _, rfl, hidx', hidx, hsame⟩
      · rintro (h | ⟨es', idx, idx'', hes, hidx'', hidx, hsame⟩)
        · cases h
        · cases hes
          rw [hidx'] at hidx''
          cases hidx''
          cases hopen : openNamespace P d with
          | error e => rw [hopen] at hindex; cases hindex
          | ok r =>
            rw [hopen] at hindex
            cases hindex
            exact ⟨r.1, r.2, idx, rfl, hidx, hsame⟩

/-- One record and the footer a seal gives it. -/
def sealedPut : Bytes :=
  logBytes realPrims [plainPut 1 [0x61] [0x31] fits_short]
    ++ footerBytes realPrims [⟨[0x61], 0, 39, none, 1, none⟩]

/-- `sealedPut` with its byte at `i` set to zero. The magic is its last eight bytes, the
checksum the eight before. -/
def sealedPutZeroed (i : Nat) : Bytes := sealedPut.set i 0

theorem open_altered_footer_iff_magic :
    ∃ o d' idx, openNamespace realPrims (Disk.single 0 (sealedPutZeroed 97)) = .ok (o, d')
      ∧ loadAs realPrims (Disk.single 0 (sealedPutZeroed 97)) 0
          (rebuildFromRecords realPrims ((Disk.single 0 (sealedPutZeroed 97)).inodes 0) 0)
          (Disk.single 0 (sealedPutZeroed 97)).listDataFiles .empty = .ok idx
      ∧ ∀ k, o.index.at k = idx.at k :=
  (open_altered_footer_iff realPrims (by decide +kernel : _ = ([] : List (Nat × Nat)) ++ [(0, 0)])
    (by decide) (by decide +kernel) (by
      intro f hf hne
      have hlist : (Disk.single 0 (sealedPutZeroed 97)).listDataFiles = [(0, 0)] :=
        by decide +kernel
      rw [hlist, List.mem_singleton] at hf
      exact absurd (congrArg Prod.fst hf) hne)).mpr (.inr (.inl (by decide +kernel)))

/-- A byte of the checksum zeroed: the key is still in the records and was in the footer,
and the directory does not open. -/
theorem damaged_footer_blocks_open :
    ((openNamespace realPrims (Disk.single 0 sealedPut)).toOption.map
      fun o => o.1.index.get [0x61]) = some (some (IndexEntry.new 0 0 39 1))
    ∧ (rebuildFromRecords realPrims (sealedPutZeroed 85) 0 .empty).get [0x61]
      = some (IndexEntry.new 0 0 39 1)
    ∧ (openNamespace realPrims (Disk.single 0 (sealedPutZeroed 85))).toOption.isNone := by
  refine ⟨?_, ?_, ?_⟩ <;> decide +kernel

end BeyondKv
