/-
# Data files and the index

`DirOk` ties the open handles to the directory, `RecAt` says that a record of a
key stands at an index entry's place, and `FilesOk` puts them together: every
live key's record is where the index says, and every sealed file ends in its
footer, whose entries point at records of that file.

One lemma per kind of change: a side step (blobs, temporary files), an append, a
new index, a footer, a new name, a name removed. Whatever the log does to its
directory is a composition of these.
-/
import BeyondKv.Restart

namespace BeyondKv

open List

open Std (ExtTreeMap)

/-! ## The directory -/

/-- The inode is, or was, the data file `id`. -/
def Disk.Logs (d : Disk) (id ino : Nat) : Prop := d.data[id]? = some ino ∨ (id, ino) ∈ d.unlinked

/-- The data files of the directory are those open in `H`. An inode that is or was a data
file was never another one and is not a blob. -/
structure DirOk (H : ExtTreeMap Nat LogFile) (d : Disk) : Prop where
  map : ∀ id : Nat, d.data[id]? = H[id]?.map LogFile.ino
  own : ∀ {id : Nat} {f : LogFile}, H[id]? = some f → f.fileId = id
  inj : ∀ {id id' ino : Nat}, d.Logs id ino → d.Logs id' ino → id = id'
  once : ∀ {id ino : Nat}, d.data[id]? = some ino → (id, ino) ∉ d.unlinked
  lt : ∀ {id ino : Nat}, d.Logs id ino → ino < d.nextIno
  small : ∀ {id ino : Nat}, d.data[id]? = some ino → (d.inodes ino).length ≤ maxFileSize
  blobLt : ∀ {h : ContentHash} {ino : Nat}, d.blobs[h]? = some ino → ino < d.nextIno
  blobInj : ∀ {h h' : ContentHash} {ino : Nat},
    d.blobs[h]? = some ino → d.blobs[h']? = some ino → h = h'
  blobApart : ∀ {h : ContentHash} {id ino : Nat}, d.blobs[h]? = some ino → ¬ d.Logs id ino

/-- Give an inode the name `data-<id>.log`. -/
def Disk.link (d : Disk) (id ino : Nat) : Disk := { d with data := d.data.insert id ino }

/-- An inode that no data file and no blob has had. -/
structure Disk.Unused (d : Disk) (ino : Nat) : Prop where
  lt : ino < d.nextIno
  logs : ∀ id, ¬ d.Logs id ino
  blobs : ∀ h : ContentHash, d.blobs[h]? ≠ some ino

/-- Data files, linked or not, are untouched; blobs keep their inode or get a new one. -/
structure SideStep (d d' : Disk) : Prop where
  data : d'.data = d.data
  unlinked : d'.unlinked = d.unlinked
  nextIno : d.nextIno ≤ d'.nextIno
  inodes : ∀ {id ino : Nat}, d.Logs id ino → d'.inodes ino = d.inodes ino
  blobs : ∀ {h : ContentHash} {ino : Nat}, d'.blobs[h]? = some ino →
    d.blobs[h]? = some ino ∨ (d.nextIno ≤ ino ∧ ino < d'.nextIno)
  blobInj : (∀ {h h' : ContentHash} {ino : Nat},
      d.blobs[h]? = some ino → d.blobs[h']? = some ino → h = h') →
    ∀ {h h' : ContentHash} {ino : Nat},
      d'.blobs[h]? = some ino → d'.blobs[h']? = some ino → h = h'

theorem SideStep.refl (d : Disk) : SideStep d d where
  data := rfl
  unlinked := rfl
  nextIno := Nat.le_refl _
  inodes := fun _ => rfl
  blobs := .inl
  blobInj := fun h => h

theorem SideStep.logs {d d' : Disk} (h : SideStep d d') (id ino : Nat) :
    d'.Logs id ino ↔ d.Logs id ino := by
  simp only [Disk.Logs, h.data, h.unlinked]

theorem SideStep.trans {d d' d'' : Disk} (h : SideStep d d') (h' : SideStep d' d'') :
    SideStep d d'' where
  data := h'.data.trans h.data
  unlinked := h'.unlinked.trans h.unlinked
  nextIno := h.nextIno.trans h'.nextIno
  inodes := fun hl => (h'.inodes ((h.logs _ _).mpr hl)).trans (h.inodes hl)
  blobs := fun hb => by
    rcases h'.blobs hb with hold | ⟨hge, hlt⟩
    · rcases h.blobs hold with hold | ⟨hge, hlt⟩
      · exact .inl hold
      · exact .inr ⟨hge, hlt.trans_le h'.nextIno⟩
    · exact .inr ⟨h.nextIno.trans hge, hlt⟩
  blobInj := fun hinj => h'.blobInj (h.blobInj hinj)

/-- A side step that leaves the blobs alone, too: work on a temporary file. -/
structure TmpStep (d d' : Disk) : Prop extends SideStep d d' where
  sameBlobs : d'.blobs = d.blobs
  blobBytes : ∀ {h : ContentHash} {ino : Nat}, d.blobs[h]? = some ino → d'.inodes ino = d.inodes ino

theorem TmpStep.refl (d : Disk) : TmpStep d d :=
  { SideStep.refl d with sameBlobs := rfl, blobBytes := fun _ => rfl }

theorem TmpStep.trans {d d' d'' : Disk} (h : TmpStep d d') (h' : TmpStep d' d'') : TmpStep d d'' :=
  { h.toSideStep.trans h'.toSideStep with
    sameBlobs := h'.sameBlobs.trans h.sameBlobs
    blobBytes := fun hb => (h'.blobBytes (h.sameBlobs ▸ hb)).trans (h.blobBytes hb) }

theorem TmpStep.setTmp (d : Disk) (tmp : ExtTreeMap Nat Nat) : TmpStep d { d with tmp } :=
  { TmpStep.refl d with }

theorem TmpStep.setBytes {d : Disk} {ino : Nat} (hu : d.Unused ino) (b : Bytes) :
    TmpStep d (d.setBytes ino b) where
  data := rfl
  unlinked := rfl
  nextIno := Nat.le_refl _
  inodes := fun hl => d.inodes_setBytes_of_ne b fun heq => hu.logs _ (heq ▸ hl)
  blobs := .inl
  blobInj := fun h => h
  sameBlobs := rfl
  blobBytes := fun hb => d.inodes_setBytes_of_ne b fun heq => hu.blobs _ (heq ▸ hb)

theorem Disk.Unused.setBytes {d : Disk} {ino : Nat} (hu : d.Unused ino) (b : Bytes) :
    (d.setBytes ino b).Unused ino := ⟨hu.lt, hu.logs, hu.blobs⟩

section directory
variable {H : ExtTreeMap Nat LogFile} {d : Disk}

theorem DirOk.data_of_handle (h : DirOk H d) {id : Nat} {f : LogFile} (hf : H[id]? = some f) :
    d.data[id]? = some f.ino := by
  rw [h.map, hf]; rfl

theorem DirOk.logs_of_handle (h : DirOk H d) {id : Nat} {f : LogFile} (hf : H[id]? = some f) :
    d.Logs id f.ino := .inl (h.data_of_handle hf)

/-- Handles of different ids are different files. -/
theorem DirOk.ino_ne (h : DirOk H d) {id id' : Nat} {f f' : LogFile} (hf : H[id]? = some f)
    (hf' : H[id']? = some f') (hne : id ≠ id') : f.ino ≠ f'.ino := fun heq =>
  hne (h.inj (h.logs_of_handle hf) (heq ▸ h.logs_of_handle hf'))

/-- New contents for a file. -/
theorem DirOk.setBytes (h : DirOk H d) (ino : Nat) {b : Bytes} (hb : b.length ≤ maxFileSize) :
    DirOk H (d.setBytes ino b) where
  map := h.map
  own := h.own
  inj := h.inj
  once := h.once
  lt := h.lt
  blobLt := h.blobLt
  blobInj := h.blobInj
  blobApart := h.blobApart
  small := by
    intro id ino' hf
    by_cases hino : ino' = ino
    · rw [hino, Disk.inodes_setBytes]; exact hb
    · rw [Disk.inodes_setBytes_of_ne _ _ hino]; exact h.small hf

theorem DirOk.sideStep {d' : Disk} (h : DirOk H d) (hs : SideStep d d') : DirOk H d' where
  map := fun id => by rw [hs.data, h.map]
  own := h.own
  inj := fun h₁ h₂ => h.inj ((hs.logs _ _).mp h₁) ((hs.logs _ _).mp h₂)
  once := fun hd => by rw [hs.data] at hd; rw [hs.unlinked]; exact h.once hd
  lt := fun hl => (h.lt ((hs.logs _ _).mp hl)).trans_le hs.nextIno
  small := fun hd => by
    rw [hs.data] at hd
    rw [hs.inodes (.inl hd)]
    exact h.small hd
  blobLt := fun hb => by
    rcases hs.blobs hb with hold | ⟨-, hlt⟩
    · exact (h.blobLt hold).trans_le hs.nextIno
    · exact hlt
  blobInj := hs.blobInj h.blobInj
  blobApart := fun hb hl => by
    have hl := (hs.logs _ _).mp hl
    rcases hs.blobs hb with hold | ⟨hge, -⟩
    · exact h.blobApart hold hl
    · exact Nat.lt_irrefl _ ((h.lt hl).trans_le hge)

/-- A new name. -/
theorem DirOk.link (h : DirOk H d) {id ino : Nat} (hu : d.Unused ino)
    (hsmall : (d.inodes ino).length ≤ maxFileSize) (hnew : d.data[id]? = none) :
    DirOk (H.insert id ⟨id, ino⟩) (d.link id ino) := by
  have hcases : ∀ {id' ino' : Nat}, (d.link id ino).data[id']? = some ino' →
      (id' = id ∧ ino' = ino) ∨ (id' ≠ id ∧ d.data[id']? = some ino') := by
    intro id' ino' hf
    simp only [Disk.link, ExtTreeMap.getElem?_insert] at hf
    by_cases hid : id = id'
    · subst hid; simp at hf; exact .inl ⟨rfl, hf.symm⟩
    · simp [hid] at hf; exact .inr ⟨fun h => hid h.symm, hf⟩
  have hlogs : ∀ {id' ino' : Nat}, (d.link id ino).Logs id' ino' →
      (id' = id ∧ ino' = ino) ∨ d.Logs id' ino' := by
    rintro id' ino' (hf | hf)
    · exact (hcases hf).imp_right fun h => .inl h.2
    · exact .inr (.inr hf)
  constructor
  · intro id'
    simp only [Disk.link, ExtTreeMap.getElem?_insert, h.map]
    split <;> rfl
  · intro id' f hf
    by_cases hid : id = id'
    · subst hid; simp at hf; rw [← hf]
    · simp [ExtTreeMap.getElem?_insert, hid] at hf; exact h.own hf
  · intro id₁ id₂ ino' h₁ h₂
    rcases hlogs h₁ with ⟨rfl, rfl⟩ | hold₁
    · rcases hlogs h₂ with ⟨rfl, -⟩ | hold₂
      · rfl
      · exact absurd hold₂ (hu.logs _)
    · rcases hlogs h₂ with ⟨-, rfl⟩ | hold₂
      · exact absurd hold₁ (hu.logs _)
      · exact h.inj hold₁ hold₂
  · intro id' ino' hf
    rcases hcases hf with ⟨rfl, rfl⟩ | ⟨-, hold⟩
    · exact fun hun => hu.logs _ (.inr hun)
    · exact h.once hold
  · intro id' ino' hl
    rcases hlogs hl with ⟨-, rfl⟩ | hold
    · exact hu.lt
    · exact h.lt hold
  · intro id' ino' hf
    rcases hcases hf with ⟨-, rfl⟩ | ⟨-, hold⟩
    · exact hsmall
    · exact h.small hold
  · exact h.blobLt
  · exact h.blobInj
  · intro hash id' ino' hb hl
    rcases hlogs hl with ⟨-, rfl⟩ | hold
    · exact hu.blobs _ hb
    · exact h.blobApart hb hold

/-- A name removed. -/
theorem DirOk.unlink (h : DirOk H d) {id ino : Nat} (hd : d.data[id]? = some ino) :
    DirOk (H.erase id) (d.unlinkData id ino) := by
  have hcases : ∀ {id' ino' : Nat}, (d.unlinkData id ino).data[id']? = some ino' →
      id' ≠ id ∧ d.data[id']? = some ino' := by
    intro id' ino' hf
    simp only [Disk.unlinkData, ExtTreeMap.getElem?_erase] at hf
    by_cases hid : id = id'
    · simp [hid] at hf
    · simp [hid] at hf; exact ⟨fun h => hid h.symm, hf⟩
  have hlogs : ∀ {id' ino' : Nat}, (d.unlinkData id ino).Logs id' ino' → d.Logs id' ino' := by
    rintro id' ino' (hf | hf)
    · exact .inl (hcases hf).2
    · rcases mem_cons.mp hf with heq | hf
      · cases heq; exact .inl hd
      · exact .inr hf
  constructor
  · intro id'
    simp only [Disk.unlinkData, ExtTreeMap.getElem?_erase, h.map]
    split <;> rfl
  · intro id' f hf
    by_cases hid : id = id'
    · simp [hid] at hf
    · simp [ExtTreeMap.getElem?_erase, hid] at hf; exact h.own hf
  · exact fun h₁ h₂ => h.inj (hlogs h₁) (hlogs h₂)
  · intro id' ino' hf hmem
    obtain ⟨hne, hold⟩ := hcases hf
    rcases mem_cons.mp hmem with heq | hmem
    · cases heq; exact hne rfl
    · exact h.once hold hmem
  · exact fun hl => h.lt (hlogs hl)
  · exact fun hf => h.small (hcases hf).2
  · exact h.blobLt
  · exact h.blobInj
  · exact fun hb hl => h.blobApart hb (hlogs hl)

/-- The directory with an unused, empty inode. -/
def Disk.alloc (d : Disk) : Disk :=
  { d with inodes := Function.update d.inodes d.nextIno [], nextIno := d.nextIno + 1 }

theorem DirOk.tmpStep_alloc (h : DirOk H d) : TmpStep d d.alloc where
  data := rfl
  unlinked := rfl
  nextIno := Nat.le_succ _
  inodes := fun hl => Function.update_of_ne (Nat.ne_of_lt (h.lt hl)) _ _
  blobs := .inl
  blobInj := fun h => h
  sameBlobs := rfl
  blobBytes := fun hb => Function.update_of_ne (Nat.ne_of_lt (h.blobLt hb)) _ _

theorem DirOk.unused_alloc (h : DirOk H d) : d.alloc.Unused d.nextIno where
  lt := Nat.lt_succ_self _
  logs := fun _ hl => Nat.lt_irrefl _ (h.lt hl)
  blobs := fun _ hb => Nat.lt_irrefl _ (h.blobLt hb)

/-- `open` with `create` under a new name. -/
theorem openCreateData_new {id : Nat} (hnew : d.data[id]? = none) :
    (d.openCreateData id).2 = d.alloc.link id d.nextIno := by
  simp [Disk.openCreateData, hnew, Disk.alloc, Disk.link]

end directory

/-! ## Records in files -/

/-- The bytes at `e` are the record of a put of `key` with the revision of `e`; `hash` is
the blob it points at. -/
def RecAt (P : Prims) (file key : Bytes) (e : IndexEntry) (hash : Option ContentHash) : Prop :=
  ∃ (l : Logged) (v : Stored) (m : Bytes) (x : Option UInt64),
    l.op = .put key v m x ∧ l.tstampMs = e.tstampMs ∧ v.hash? = hash
      ∧ e.recordSize = (l.toRec.bytes P).length
      ∧ Bytes.slice file e.recordOffset e.recordSize = l.toRec.bytes P

variable {file key : Bytes} {e : IndexEntry} {hash : Option ContentHash}

theorem RecAt.bound {P : Prims}
    (h : RecAt P file key e hash) : e.recordOffset + e.recordSize ≤ file.length := by
  obtain ⟨l, v, m, x, -, -, -, hsize, hslice⟩ := h
  have hlen := congrArg List.length hslice
  have hpos := l.toRec.length_bytes_pos P
  rw [Bytes.length_slice] at hlen
  omega

theorem RecAt.append {P : Prims} (h : RecAt P file key e hash) (rest : Bytes) :
    RecAt P (file ++ rest) key e hash := by
  have hb := h.bound
  obtain ⟨l, v, m, x, hop, hts, hhash, hsize, hslice⟩ := h
  exact ⟨l, v, m, x, hop, hts, hhash, hsize, by rw [Bytes.slice_append_left hb, hslice]⟩

/-- The record an append has just put at the end of a file. -/
theorem RecAt.last (P : Prims) (file : Bytes) (fileId : Nat) {l : Logged}
    {v : Stored} {m : Bytes} {x : Option UInt64} (hop : l.op = .put key v m x) :
    RecAt P (file ++ l.toRec.bytes P) key
      (IndexEntry.new fileId file.length (l.toRec.bytes P).length l.tstampMs) v.hash? := by
  refine ⟨l, v, m, x, hop, rfl, rfl, rfl, ?_⟩
  have := Bytes.slice_mid file (l.toRec.bytes P) []
  simpa [IndexEntry.new] using this

theorem RecAt.recordSize_le {P : Prims} (h : RecAt P file key e hash) : e.recordSize ≤ u32Max := by
  obtain ⟨l, v, m, x, -, -, -, hsize, -⟩ := h
  rw [hsize]
  exact l.toRec.length_bytes_le P

theorem RecAt.key_le {P : Prims} (h : RecAt P file key e hash) : key.length ≤ u32Max := by
  obtain ⟨l, v, m, x, hop, -, -, -, -⟩ := h
  have hfits := l.fits
  rw [hop] at hfits
  simp only [LogOp.key] at hfits
  omega

/-! ## Files and index together -/

theorem mem_footerOf {idx : NsIndex} {id : Nat} {fe : FooterEntry} :
    fe ∈ footerOf idx id
      ↔ ∃ e, idx.get fe.key = some e ∧ e.fileId = id ∧ fe = footerEntryOf idx fe.key e := by
  have hmap : footerOf idx id = (idx.entries.filter fun p => p.2.fileId = id).map
      fun p => footerEntryOf idx p.1 p.2 := rfl
  simp only [hmap, mem_map, mem_filter, decide_eq_true_eq]
  constructor
  · rintro ⟨⟨k, e⟩, ⟨hmem, hid⟩, rfl⟩
    exact ⟨e, NsIndex.mem_entries.mp hmem, hid, rfl⟩
  · rintro ⟨e, hget, hid, hfe⟩
    exact ⟨(fe.key, e), ⟨NsIndex.mem_entries.mpr hget, hid⟩, hfe.symm⟩

theorem footerOf_nodup (idx : NsIndex) (id : Nat) :
    ((footerOf idx id).map FooterEntry.key).Nodup := by
  have hkeys : (footerOf idx id).map FooterEntry.key
      = (idx.entries.filter fun p => p.2.fileId = id).map Prod.fst := by
    simp [footerOf, Function.comp_def]
  rw [hkeys]
  exact (NsIndex.entries_nodup idx).sublist (filter_sublist.map _)

/-- A footer that points at records of its file reads back, and the file is sealed. -/
theorem readFooter_footerBytes {P : Prims} {id : Nat} {es : List FooterEntry}
    (hsize : (file ++ footerBytes P es).length ≤ maxFileSize)
    (hrec : ∀ fe ∈ es, RecAt P file fe.key (fe.toEntry id) fe.valueHash) :
    readFooter P (file ++ footerBytes P es) = .ok (some es) := by
  refine readFooter_append P file ?_ ?_
  · intro fe hfe
    have hr := hrec fe hfe
    have hkey := hr.key_le
    have hrs := hr.recordSize_le
    have hb := hr.bound
    simp only [FooterEntry.toEntry, IndexEntry.new, u32Max, maxFileSize, length_append]
      at hkey hrs hb hsize
    exact ⟨by omega, by omega, by omega⟩
  · simp only [footerBytes, maxFileSize, length_append] at hsize
    omega

/-- A sealed file whose footer points at its own records. -/
structure Footed (P : Prims) (id : Nat) (file : Bytes) : Prop where
  sealed : Sealed P file
  points : ∀ fe ∈ footerOn P file, RecAt P file fe.key (fe.toEntry id) fe.valueHash

theorem Footed.append {P : Prims} {id : Nat} {es : List FooterEntry}
    (hsize : (file ++ footerBytes P es).length ≤ maxFileSize)
    (hrec : ∀ fe ∈ es, RecAt P file fe.key (fe.toEntry id) fe.valueHash)
    (hnodup : (es.map FooterEntry.key).Nodup) :
    Footed P id (file ++ footerBytes P es) := by
  have hread := readFooter_footerBytes hsize hrec
  have hon := footerOn_of_read hread
  refine ⟨⟨by rw [hon]; exact hread, by rw [hon]; exact hnodup⟩, ?_⟩
  intro fe hfe
  rw [hon] at hfe
  exact (hrec fe hfe).append _

/-- Handles `H`, of which those in `S` are sealed, over a directory and an index. -/
structure FilesOk (P : Prims) (H S : ExtTreeMap Nat LogFile) (d : Disk) (idx : NsIndex) :
    Prop where
  dir : DirOk H d
  resolves : ∀ {k : Bytes} {e : IndexEntry}, idx.get k = some e →
    ∃ f, H[e.fileId]? = some f ∧ RecAt P (d.inodes f.ino) k e (idx.valsep k)
  isHandle : ∀ {id : Nat} {f : LogFile}, S[id]? = some f → H[id]? = some f
  footed : ∀ {id : Nat} {f : LogFile}, S[id]? = some f →
    Footed P id (d.inodes f.ino)

/-- Everything a reader can learn about a live key, blobs apart: the bytes of its record,
its revision, its expiry and its value's hash. -/
structure KeyView where
  record : Option Bytes
  tstampMs : UInt64
  expiresAtMs : Option UInt64
  valueHash : Option ContentHash
  deriving DecidableEq

def viewAt (H : ExtTreeMap Nat LogFile) (d : Disk) (idx : NsIndex) (k : Bytes) : Option KeyView :=
  (idx.get k).map fun e =>
    { record := H[e.fileId]?.map fun f =>
        Bytes.slice (d.inodes f.ino) e.recordOffset e.recordSize
      tstampMs := e.tstampMs
      expiresAtMs := idx.ttl k
      valueHash := idx.valsep k }

section files
variable {P : Prims} {H S : ExtTreeMap Nat LogFile} {d : Disk}
  {idx : NsIndex} {f : LogFile}

theorem FilesOk.sideStep {d' : Disk} (h : FilesOk P H S d idx) (hs : SideStep d d') :
    FilesOk P H S d' idx where
  dir := h.dir.sideStep hs
  resolves := by
    intro k e hk
    obtain ⟨f, hf, hr⟩ := h.resolves hk
    exact ⟨f, hf, by rw [hs.inodes (h.dir.logs_of_handle hf)]; exact hr⟩
  isHandle := h.isHandle
  footed := by
    intro id f hf
    rw [hs.inodes (h.dir.logs_of_handle (h.isHandle hf))]
    exact h.footed hf

theorem FilesOk.setIndex (h : FilesOk P H S d idx) {idx' : NsIndex}
    (hres : ∀ {k : Bytes} {e : IndexEntry}, idx'.get k = some e →
      ∃ f, H[e.fileId]? = some f ∧ RecAt P (d.inodes f.ino) k e (idx'.valsep k)) :
    FilesOk P H S d idx' where
  dir := h.dir
  resolves := hres
  isHandle := h.isHandle
  footed := h.footed

/-- Bytes at the end of a file that is not sealed. -/
theorem FilesOk.append (h : FilesOk P H S d idx) {id : Nat}
    (hf : H[id]? = some f) (hopen : S[id]? = none) {buf : Bytes}
    (hsize : (d.inodes f.ino ++ buf).length ≤ maxFileSize) :
    FilesOk P H S (d.setBytes f.ino (d.inodes f.ino ++ buf)) idx where
  dir := h.dir.setBytes f.ino hsize
  resolves := by
    intro k e hk
    obtain ⟨g, hg, hr⟩ := h.resolves hk
    refine ⟨g, hg, ?_⟩
    by_cases hino : g.ino = f.ino
    · rw [hino, Disk.inodes_setBytes, ← hino]; exact hr.append buf
    · rw [Disk.inodes_setBytes_of_ne _ _ hino]; exact hr
  isHandle := h.isHandle
  footed := by
    intro id' g hg
    have hne : id' ≠ id := by rintro rfl; rw [hopen] at hg; cases hg
    rw [Disk.inodes_setBytes_of_ne _ _ (h.dir.ino_ne (h.isHandle hg) hf hne)]
    exact h.footed hg

theorem FilesOk.recAt_of_footerOf (h : FilesOk P H S d idx) {id : Nat}
    (hf : H[id]? = some f) {fe : FooterEntry} (hfe : fe ∈ footerOf idx id) :
    RecAt P (d.inodes f.ino) fe.key (fe.toEntry id) fe.valueHash := by
  obtain ⟨e, hget, hid, hfe'⟩ := mem_footerOf.mp hfe
  obtain ⟨g, hg, hr⟩ := h.resolves hget
  rw [hid, hf] at hg
  cases hg
  have hentry : fe.toEntry id = e := by rw [hfe', ← hid]; exact footerEntryOf_toEntry idx _ e
  have hhash : fe.valueHash = idx.valsep fe.key := by rw [hfe']; rfl
  rw [hentry, hhash]
  exact hr

/-- A handle joins the sealed ones. -/
theorem FilesOk.setSealed (h : FilesOk P H S d idx) {id : Nat}
    (hf : H[id]? = some f) (hs : Footed P id (d.inodes f.ino)) :
    FilesOk P H (S.insert id f) d idx := by
  refine ⟨h.dir, h.resolves, ?_, ?_⟩
  · intro id' g hg
    by_cases hid : id = id'
    · subst hid; simp at hg; rw [← hg]; exact hf
    · simp [ExtTreeMap.getElem?_insert, hid] at hg; exact h.isHandle hg
  · intro id' g hg
    by_cases hid : id = id'
    · subst hid; simp at hg; subst hg; exact hs
    · simp [ExtTreeMap.getElem?_insert, hid] at hg; exact h.footed hg

/-- A footer of the index's own entries seals a file. -/
theorem FilesOk.seal (h : FilesOk P H S d idx) {id : Nat} (hf : H[id]? = some f)
    (hopen : S[id]? = none)
    (hsize : (d.inodes f.ino ++ footerBytes P (footerOf idx id)).length ≤ maxFileSize) :
    FilesOk P H (S.insert id f)
      (d.setBytes f.ino (d.inodes f.ino ++ footerBytes P (footerOf idx id))) idx := by
  refine (h.append hf hopen hsize).setSealed hf ?_
  rw [Disk.inodes_setBytes]
  exact Footed.append hsize (fun fe hfe => h.recAt_of_footerOf hf hfe) (footerOf_nodup idx id)

/-- A new name for an unused inode. -/
theorem FilesOk.link (h : FilesOk P H S d idx) {id ino : Nat} (hu : d.Unused ino)
    (hsmall : (d.inodes ino).length ≤ maxFileSize) (hnew : H[id]? = none) :
    FilesOk P (H.insert id ⟨id, ino⟩) S (d.link id ino) idx := by
  have hkeep : ∀ {id' : Nat} {f : LogFile}, H[id']? = some f →
      (H.insert id ⟨id, ino⟩)[id']? = some f := by
    intro id' f hf
    have hne : id ≠ id' := by rintro rfl; rw [hnew] at hf; cases hf
    simp [ExtTreeMap.getElem?_insert, hne, hf]
  refine ⟨h.dir.link hu hsmall (by rw [h.dir.map, hnew]; rfl), ?_, ?_, h.footed⟩
  · intro k e hk
    obtain ⟨f, hf, hr⟩ := h.resolves hk
    exact ⟨f, hkeep hf, hr⟩
  · exact fun hf => hkeep (h.isHandle hf)

/-- A file that no live key needs goes. -/
theorem FilesOk.unlink (h : FilesOk P H S d idx) {id : Nat}
    (hf : H[id]? = some f) (hfree : ∀ {k : Bytes} {e : IndexEntry}, idx.get k = some e →
      e.fileId ≠ id) :
    FilesOk P (H.erase id) (S.erase id) (d.unlinkData id f.ino) idx := by
  refine ⟨h.dir.unlink (h.dir.data_of_handle hf), ?_, ?_, ?_⟩
  · intro k e hk
    obtain ⟨g, hg, hr⟩ := h.resolves hk
    have hne : id ≠ e.fileId := fun heq => hfree hk heq.symm
    exact ⟨g, by simp [ExtTreeMap.getElem?_erase, hne, hg], hr⟩
  · intro id' g hg
    by_cases hid : id = id'
    · simp [hid] at hg
    · simp [ExtTreeMap.getElem?_erase, hid] at hg ⊢; exact h.isHandle hg
  · intro id' g hg
    by_cases hid : id = id'
    · simp [hid] at hg
    · simp [ExtTreeMap.getElem?_erase, hid] at hg; exact h.footed hg

/-- Names removed one after another. -/
def unlinkAll (fs : List LogFile) (d : Disk) : Disk :=
  fs.foldl (fun d f => d.unlinkData f.fileId f.ino) d

def eraseAll (fs : List LogFile) (H : ExtTreeMap Nat LogFile) : ExtTreeMap Nat LogFile :=
  fs.foldl (fun H f => H.erase f.fileId) H

theorem getElem?_eraseAll (fs : List LogFile) (H : ExtTreeMap Nat LogFile) (id : Nat) :
    (eraseAll fs H)[id]? = if id ∈ fs.map LogFile.fileId then none else H[id]? := by
  induction fs generalizing H with
  | nil => simp [eraseAll]
  | cons f fs ih =>
    have hrest := ih (H.erase f.fileId)
    simp only [eraseAll, foldl_cons, map_cons, mem_cons] at hrest ⊢
    rw [hrest]
    by_cases hmem : id ∈ fs.map LogFile.fileId
    · simp [hmem]
    · by_cases hid : id = f.fileId
      · simp [hid]
      · simp [hmem, hid, ExtTreeMap.getElem?_erase, Ne.symm hid]

theorem inodes_unlinkAll (fs : List LogFile) (d : Disk) : (unlinkAll fs d).inodes = d.inodes := by
  induction fs generalizing d with
  | nil => rfl
  | cons f fs ih => exact ih _

/-- Files that no live key needs go. -/
theorem FilesOk.unlinkAll {fs : List LogFile} (h : FilesOk P H S d idx)
    (hfs : ∀ f ∈ fs, H[f.fileId]? = some f) (hnodup : (fs.map LogFile.fileId).Nodup)
    (hfree : ∀ f ∈ fs, ∀ {k : Bytes} {e : IndexEntry}, idx.get k = some e → e.fileId ≠ f.fileId) :
    FilesOk P (eraseAll fs H) (eraseAll fs S) (unlinkAll fs d) idx := by
  induction fs generalizing H S d with
  | nil => exact h
  | cons f fs ih =>
    rw [map_cons, nodup_cons] at hnodup
    have hone := h.unlink (hfs f (mem_cons_self ..)) (hfree f (mem_cons_self ..))
    refine ih hone (fun g hg => ?_) hnodup.2 fun g hg => hfree g (mem_cons_of_mem _ hg)
    have hne : f.fileId ≠ g.fileId := fun heq => hnodup.1 (heq ▸ mem_map_of_mem hg)
    rw [ExtTreeMap.getElem?_erase]
    simp [hne, hfs g (mem_cons_of_mem _ hg)]

end files

end BeyondKv
