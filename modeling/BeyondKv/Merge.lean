/-
# One merge, on the directory and the index

A merge copies the live records of some sealed files to a new file with a higher
id, seals it with a footer, gives it its name and unlinks the inputs. This module
is about what that does to the files and to the index, whatever the order in
which the steps reach the disk; `ReclaimOps` shows that the code does just this.

`placed` is the copy loop as a function: where each record lands and what the
footer says about it. The merged index differs from the old one only in where
the records of the merged keys are.
-/
import BeyondKv.DeleteOps

namespace BeyondKv

open List

open Std (ExtTreeMap)

/-! ## The copy loop -/

/-- The new entries and the footer of a merge, records laid out from `off` on. -/
def placed (n : Nat) : Nat → List (LiveKey × Bytes) → List (LiveKey × FooterEntry)
  | _, [] => []
  | off, ((key, old, ttl), bytes) :: rest =>
    ((key, IndexEntry.new n off old.recordSize old.tstampMs, ttl),
      footerEntryFromIndex key (IndexEntry.new n off old.recordSize old.tstampMs) ttl
        (valueHashOf bytes))
      :: placed n (off + bytes.length) rest

/-- The records of a merge, end to end. -/
def copiedBytes (lst : List (LiveKey × Bytes)) : Bytes := lst.flatMap Prod.snd

theorem copiedBytes_cons (x : LiveKey × Bytes) (lst : List (LiveKey × Bytes)) :
    copiedBytes (x :: lst) = x.2 ++ copiedBytes lst := by simp [copiedBytes]

theorem placed_keys (n off : Nat) (lst : List (LiveKey × Bytes)) :
    (placed n off lst).map (fun p => p.1.1) = lst.map fun p => p.1.1 := by
  induction lst generalizing off with
  | nil => rfl
  | cons x lst ih =>
    obtain ⟨⟨key, old, ttl⟩, bytes⟩ := x
    rw [placed, map_cons, map_cons, ih]

theorem placed_footer_keys (n off : Nat) (lst : List (LiveKey × Bytes)) :
    (placed n off lst).map (fun p => p.2.key) = lst.map fun p => p.1.1 := by
  induction lst generalizing off with
  | nil => rfl
  | cons x lst ih =>
    obtain ⟨⟨key, old, ttl⟩, bytes⟩ := x
    rw [placed, map_cons, map_cons, ih]; rfl

/-- Where a copied record went. -/
structure PlacedAt (n off : Nat) (lst : List (LiveKey × Bytes)) (p : LiveKey × FooterEntry)
    (old : IndexEntry) (bytes : Bytes) : Prop where
  mem : ((p.1.1, old, p.1.2.2), bytes) ∈ lst
  place : ∃ at_, off ≤ at_ ∧ p.1.2.1 = IndexEntry.new n at_ old.recordSize old.tstampMs
    ∧ Bytes.slice (copiedBytes lst) (at_ - off) bytes.length = bytes
  footer : p.2 = footerEntryFromIndex p.1.1 p.1.2.1 p.1.2.2 (valueHashOf bytes)

variable {lst : List (LiveKey × Bytes)}

theorem PlacedAt.cons {n off : Nat} {x : LiveKey × Bytes}
    {p : LiveKey × FooterEntry} {old : IndexEntry} {bytes : Bytes}
    (h : PlacedAt n (off + x.2.length) lst p old bytes) :
    PlacedAt n off (x :: lst) p old bytes := by
  obtain ⟨hmem, ⟨at_, hle, hnew, hslice⟩, hfooter⟩ := h
  refine ⟨mem_cons_of_mem _ hmem, ⟨at_, by omega, hnew, ?_⟩, hfooter⟩
  rw [copiedBytes_cons, Bytes.slice_append_right (by omega)]
  have : at_ - off - x.2.length = at_ - (off + x.2.length) := by omega
  rw [this, hslice]

theorem placedAt_head (n off : Nat) (key : Bytes) (old : IndexEntry) (ttl : Option UInt64)
    (bytes : Bytes) (lst : List (LiveKey × Bytes)) :
    PlacedAt n off (((key, old, ttl), bytes) :: lst)
      ((key, IndexEntry.new n off old.recordSize old.tstampMs, ttl),
        footerEntryFromIndex key (IndexEntry.new n off old.recordSize old.tstampMs) ttl
          (valueHashOf bytes)) old bytes := by
  refine ⟨mem_cons_self .., ⟨off, Nat.le_refl _, rfl, ?_⟩, rfl⟩
  rw [copiedBytes_cons, Nat.sub_self, Bytes.slice_append_left (by simp), Bytes.slice_self]

/-- Every placed entry is some record's. -/
theorem placedAt_of_mem {n off : Nat} {p : LiveKey × FooterEntry}
    (hp : p ∈ placed n off lst) : ∃ old bytes, PlacedAt n off lst p old bytes := by
  induction lst generalizing off with
  | nil => cases hp
  | cons x lst ih =>
    obtain ⟨⟨key, old, ttl⟩, bytes⟩ := x
    rw [placed] at hp
    rcases mem_cons.mp hp with rfl | hp
    · exact ⟨old, bytes, placedAt_head n off key old ttl bytes lst⟩
    · obtain ⟨old', bytes', h⟩ := ih hp
      exact ⟨old', bytes', h.cons⟩

/-- Every record is placed. -/
theorem exists_placed {n off : Nat} {key : Bytes}
    {old : IndexEntry} {ttl : Option UInt64} {bytes : Bytes} (hx : ((key, old, ttl), bytes) ∈ lst) :
    ∃ p ∈ placed n off lst, p.1.1 = key ∧ p.1.2.2 = ttl ∧ PlacedAt n off lst p old bytes := by
  induction lst generalizing off with
  | nil => cases hx
  | cons x lst ih =>
    rcases mem_cons.mp hx with rfl | hx
    · exact ⟨_, mem_cons_self .., rfl, rfl, placedAt_head n off key old ttl bytes lst⟩
    · obtain ⟨p, hp, hkey, httl, h⟩ := @ih (off + x.2.length) hx
      obtain ⟨⟨key', old', ttl'⟩, bytes'⟩ := x
      exact ⟨p, mem_cons_of_mem _ hp, hkey, httl, h.cons⟩

/-! ## The merged index -/

/-- The index with the entries of a merge in place. -/
def insertAll (idx : NsIndex) (entries : List LiveKey) : NsIndex :=
  entries.foldl (fun idx (k, e, ttl) => idx.insert k e ttl) idx

theorem at_insertAll_of_not_mem {entries : List LiveKey} {k : Bytes}
    (hk : k ∉ entries.map fun x => x.1) (idx : NsIndex) :
    (insertAll idx entries).at k = idx.at k := by
  induction entries generalizing idx with
  | nil => rfl
  | cons x rest ih =>
    obtain ⟨key, e, ttl⟩ := x
    rw [map_cons, mem_cons, not_or] at hk
    have hrest := ih hk.2 (idx.insert key e ttl)
    have hne : ¬ key = k := fun h => hk.1 h.symm
    simp only [insertAll, foldl_cons] at hrest ⊢
    rw [hrest]
    simp [NsIndex.at, hne]

theorem at_insertAll_of_mem {entries : List LiveKey} {k : Bytes} {e : IndexEntry}
    {ttl : Option UInt64} (hnodup : (entries.map fun x => x.1).Nodup) (hmem : (k, e, ttl) ∈ entries)
    (idx : NsIndex) : (insertAll idx entries).at k = (some e, ttl, idx.valsep k) := by
  induction entries generalizing idx with
  | nil => cases hmem
  | cons x rest ih =>
    rw [map_cons, nodup_cons] at hnodup
    rcases mem_cons.mp hmem with rfl | hrest
    · have := at_insertAll_of_not_mem hnodup.1 (idx.insert k e ttl)
      simp only [insertAll, foldl_cons] at this ⊢
      rw [this]
      simp [NsIndex.at]
    · obtain ⟨key, e', ttl'⟩ := x
      have := ih hnodup.2 hrest (idx.insert key e' ttl')
      simp only [insertAll, foldl_cons] at this ⊢
      rw [this, NsIndex.valsep_insert]

/-! ## A merge job -/

/-- The hash a put's record carries is the one the index keeps for it. -/
theorem valueHashOf_put (P : Prims) {l : Logged} {key m : Bytes} {v : Stored} {x : Option UInt64}
    (hop : l.op = .put key v m x) : valueHashOf (l.toRec.bytes P) = v.hash? := by
  have hflags : (l.toRec.header P).flags = expiryFlag x ||| v.flag := by
    simp [Rec.header, Logged.toRec, hop, LogOp.flags]
  obtain ⟨-, -, -, hv⟩ := hasFlag_put v x
  unfold valueHashOf
  rw [l.toRec.parseHeader_bytes P]
  simp only [hflags, hv]
  cases v with
  | inline w => simp [Stored.hash?]
  | blob h =>
    have hval : (l.toRec.header P).valSize = 16 := by
      simp [Rec.header, Logged.toRec, hop, LogOp.value, Stored.bytes]
    have hslice : Bytes.slice (l.toRec.bytes P) (headerLen + (l.toRec.header P).keySize) 16
        = h.toList := by
      have hmid := Bytes.slice_mid key h.toList m
      have hkey : (l.toRec.header P).keySize = key.length := by
        simp [Rec.header, Logged.toRec, hop, LogOp.key]
      have hbody : l.toRec.body = key ++ h.toList ++ m := by
        simp [Rec.body, Logged.toRec, hop, LogOp.key, LogOp.value, Stored.bytes, LogOp.metadata]
      rw [Rec.bytes_eq, Bytes.slice_append_right (by rw [Rec.length_headerBytes]; omega),
        Rec.length_headerBytes, hkey, hbody, Nat.add_sub_cancel_left]
      simpa using hmid
    rw [hval, hslice, FooterEntry.hashOfBytes_toList]
    simp [Stored.hash?]

/-- The files `ids` of a fully sealed log, to be merged into the file `newId`. -/
structure MergeJob where
  sealed : ExtTreeMap Nat LogFile
  disk : Disk
  index : NsIndex
  ids : List Nat
  newId : Nat

namespace MergeJob
variable (J : MergeJob)

/-- The record an index entry points at. -/
def recordAt (e : IndexEntry) : Bytes :=
  match J.sealed[e.fileId]? with
  | some f => Bytes.slice (J.disk.inodes f.ino) e.recordOffset e.recordSize
  | none => []

/-- The live keys of the inputs, with their records. -/
def list : List (LiveKey × Bytes) :=
  (liveIn J.index J.ids).map fun x => (x, J.recordAt x.2.1)

def entries : List LiveKey := (placed J.newId 0 J.list).map Prod.fst

def footer : List FooterEntry := (placed J.newId 0 J.list).map Prod.snd

/-- The contents of the merged file. -/
def file (P : Prims) : Bytes := copiedBytes J.list ++ footerBytes P J.footer

def newIndex : NsIndex := insertAll J.index J.entries

structure Ok (P : Prims) : Prop where
  files : FilesOk P J.sealed J.sealed J.disk J.index
  fresh : ∀ {id : Nat} {f : LogFile}, J.sealed[id]? = some f → id < J.newId

variable {J} {P : Prims} {k : Bytes} {e : IndexEntry}

theorem mem_liveIn {idx : NsIndex} {ids : List Nat} {ttl : Option UInt64} :
    (k, e, ttl) ∈ liveIn idx ids ↔ idx.get k = some e ∧ e.fileId ∈ ids ∧ ttl = idx.ttl k := by
  simp only [liveIn, mem_map, mem_filter, decide_eq_true_eq, Prod.exists, Prod.mk.injEq]
  constructor
  · rintro ⟨k', e', ⟨hmem, hid⟩, rfl, rfl, rfl⟩
    exact ⟨NsIndex.mem_entries.mp hmem, hid, rfl⟩
  · rintro ⟨hget, hid, rfl⟩
    exact ⟨k, e, ⟨NsIndex.mem_entries.mpr hget, hid⟩, rfl, rfl, rfl⟩

theorem mem_list {ttl : Option UInt64} {b : Bytes} : ((k, e, ttl), b) ∈ J.list
      ↔ J.index.get k = some e ∧ e.fileId ∈ J.ids ∧ ttl = J.index.ttl k ∧ b = J.recordAt e := by
  simp only [list, mem_map, Prod.exists, Prod.mk.injEq]
  constructor
  · rintro ⟨k', e', ttl', hmem, ⟨rfl, rfl, rfl⟩, rfl⟩
    obtain ⟨hget, hid, httl⟩ := mem_liveIn.mp hmem
    exact ⟨hget, hid, httl, rfl⟩
  · rintro ⟨hget, hid, httl, rfl⟩
    exact ⟨k, e, ttl, mem_liveIn.mpr ⟨hget, hid, httl⟩, ⟨rfl, rfl, rfl⟩, rfl⟩

theorem list_keys_nodup : (J.list.map fun p => p.1.1).Nodup := by
  have hkeys : (J.list.map fun p => p.1.1)
      = (J.index.entries.filter fun p => p.2.fileId ∈ J.ids).map Prod.fst := by
    simp [list, liveIn, Function.comp_def]
  rw [hkeys]
  exact (NsIndex.entries_nodup J.index).sublist (filter_sublist.map _)

theorem entries_keys_nodup : (J.entries.map fun x => x.1).Nodup := by
  have := placed_keys J.newId 0 J.list
  rw [entries, map_map]
  exact this ▸ list_keys_nodup

/-- The record of a live key. -/
theorem Ok.record (h : J.Ok P) (hk : J.index.get k = some e) :
    ∃ (l : Logged) (v : Stored) (m : Bytes) (x : Option UInt64),
      l.op = .put k v m x ∧ l.tstampMs = e.tstampMs ∧ v.hash? = J.index.valsep k
        ∧ e.recordSize = (l.toRec.bytes P).length ∧ J.recordAt e = l.toRec.bytes P := by
  obtain ⟨f, hf, l, v, m, x, hop, hts, hhash, hsize, hslice⟩ := h.files.resolves hk
  exact ⟨l, v, m, x, hop, hts, hhash, hsize, by simp only [recordAt, hf]; exact hslice⟩

/-- A key in one of the inputs: its entry moves to the merged file. -/
theorem Ok.moved (h : J.Ok P) (hk : J.index.get k = some e) (hid : e.fileId ∈ J.ids) :
    ∃ new, J.newIndex.at k = (some new, J.index.ttl k, J.index.valsep k)
      ∧ new.fileId = J.newId ∧ new.tstampMs = e.tstampMs
      ∧ footerEntryFromIndex k new (J.index.ttl k) (J.index.valsep k) ∈ J.footer
      ∧ RecAt P (copiedBytes J.list) k new (J.index.valsep k)
      ∧ Bytes.slice (copiedBytes J.list) new.recordOffset new.recordSize = J.recordAt e := by
  obtain ⟨l, v, m, x, hop, hts, hhash, hsize, hrec⟩ := h.record hk
  have hmem : ((k, e, J.index.ttl k), J.recordAt e) ∈ J.list := mem_list.mpr ⟨hk, hid, rfl, rfl⟩
  obtain ⟨p, hp, rfl, httl, hplaced⟩ := @exists_placed J.list J.newId 0 _ _ _ _ hmem
  obtain ⟨at_, -, hnew, hslice⟩ := hplaced.place
  have hfe :
      p.2 = footerEntryFromIndex p.1.1 p.1.2.1 (J.index.ttl p.1.1) (J.index.valsep p.1.1) := by
    rw [hplaced.footer, httl, hrec, valueHashOf_put P hop, hhash]
  have hent : (p.1.1, p.1.2.1, J.index.ttl p.1.1) ∈ J.entries :=
    mem_map.mpr ⟨p, hp, by rw [← httl]⟩
  have hlen : (J.recordAt e).length = e.recordSize := by rw [hrec, hsize]
  rw [Nat.sub_zero, hlen] at hslice
  have hslice' : Bytes.slice (copiedBytes J.list) p.1.2.1.recordOffset p.1.2.1.recordSize
      = J.recordAt e := by rw [hnew]; exact hslice
  refine ⟨p.1.2.1, at_insertAll_of_mem entries_keys_nodup hent _, by rw [hnew]; rfl,
    by rw [hnew]; rfl, hfe ▸ mem_map_of_mem hp, ?_, hslice'⟩
  exact ⟨l, v, m, x, hop, by rw [hts, hnew]; rfl, hhash, by rw [← hsize, hnew]; rfl,
    by rw [hslice', hrec]⟩

/-- Any other key keeps its entry. -/
theorem kept (hk : ∀ e, J.index.get k = some e → e.fileId ∉ J.ids) :
    J.newIndex.at k = J.index.at k := by
  refine at_insertAll_of_not_mem ?_ _
  intro hmem
  obtain ⟨x, hx, rfl⟩ := mem_map.mp hmem
  obtain ⟨p, hp, rfl⟩ := mem_map.mp hx
  obtain ⟨old, bytes, hplaced⟩ := placedAt_of_mem hp
  obtain ⟨hget, hid, -, -⟩ := mem_list.mp hplaced.mem
  exact hk old hget hid

/-- A key is in one of the inputs, or it keeps its entry. -/
theorem moved_or_kept (J : MergeJob) (k : Bytes) :
    (∃ e, J.index.get k = some e ∧ e.fileId ∈ J.ids)
      ∨ ((∀ e, J.index.get k = some e → e.fileId ∉ J.ids) ∧ J.newIndex.at k = J.index.at k) := by
  by_cases hmoved : ∃ e, J.index.get k = some e ∧ e.fileId ∈ J.ids
  · exact .inl hmoved
  · have hout : ∀ e, J.index.get k = some e → e.fileId ∉ J.ids :=
      fun e he hid => hmoved ⟨e, he, hid⟩
    exact .inr ⟨hout, kept hout⟩

/-- Every footer entry of the merged file is a moved key's. -/
theorem of_mem_footer {fe : FooterEntry} (hfe : fe ∈ J.footer) :
    ∃ e, J.index.get fe.key = some e ∧ e.fileId ∈ J.ids := by
  obtain ⟨p, hp, rfl⟩ := mem_map.mp hfe
  obtain ⟨old, bytes, hplaced⟩ := placedAt_of_mem hp
  obtain ⟨hget, hid, -, -⟩ := mem_list.mp hplaced.mem
  have hkey : p.2.key = p.1.1 := by rw [hplaced.footer]; rfl
  rw [hkey]
  exact ⟨old, hget, hid⟩

theorem footer_nodup : (J.footer.map FooterEntry.key).Nodup := by
  have := placed_footer_keys J.newId 0 J.list
  rw [footer, map_map]
  exact this ▸ list_keys_nodup

/-- A footer names a key once. -/
theorem footer_unique {fe fe' : FooterEntry} (h : fe ∈ J.footer) (h' : fe' ∈ J.footer)
    (hkey : fe.key = fe'.key) : fe = fe' :=
  inj_on_of_nodup_map footer_nodup h h' hkey

/-- The footer of the merged file says what the merged index says. -/
theorem Ok.footer_eq (h : J.Ok P) {fe : FooterEntry} (hfe : fe ∈ J.footer) :
    ∃ new, J.newIndex.get fe.key = some new ∧ new.fileId = J.newId
      ∧ fe = footerEntryOf J.newIndex fe.key new
      ∧ RecAt P (copiedBytes J.list) fe.key (fe.toEntry J.newId) fe.valueHash := by
  obtain ⟨e, hget, hid⟩ := of_mem_footer hfe
  obtain ⟨new, hat, hnewId, -, hmem, hrec, -⟩ := h.moved hget hid
  have hfe' : fe = footerEntryFromIndex fe.key new (J.index.ttl fe.key) (J.index.valsep fe.key) :=
    footer_unique hfe hmem rfl
  have hg : J.newIndex.get fe.key = some new := congrArg Prod.fst hat
  have ht : J.newIndex.ttl fe.key = J.index.ttl fe.key := congrArg (fun t => t.2.1) hat
  have hv : J.newIndex.valsep fe.key = J.index.valsep fe.key := congrArg (fun t => t.2.2) hat
  refine ⟨new, hg, hnewId, ?_, ?_⟩
  · rw [footerEntryOf, ht, hv]; exact hfe'
  · have hentry : fe.toEntry J.newId = new := by rw [hfe', ← hnewId]; rfl
    have hhash : fe.valueHash = J.index.valsep fe.key := by rw [hfe']; rfl
    rw [hentry, hhash]
    exact hrec

theorem Ok.footed (h : J.Ok P) (hsize : (J.file P).length ≤ maxFileSize) :
    Footed P J.newId (J.file P) :=
  Footed.append hsize (fun _ hfe => (h.footer_eq hfe).choose_spec.2.2.2) footer_nodup

theorem Ok.footerOn (h : J.Ok P) (hsize : (J.file P).length ≤ maxFileSize) :
    BeyondKv.footerOn P (J.file P) = J.footer :=
  footerOn_of_read (readFooter_footerBytes hsize
    fun _ hfe => (h.footer_eq hfe).choose_spec.2.2.2)

/-! ## The directory during and after a merge -/

/-- The merged file is complete under its temporary name. -/
structure Built (P : Prims) (J : MergeJob) (d : Disk) (ino : Nat) : Prop where
  side : TmpStep J.disk d
  unused : d.Unused ino
  bytes : d.inodes ino = J.file P
  small : (J.file P).length ≤ maxFileSize

/-- Handles of inputs, each once. -/
structure Inputs (J : MergeJob) (us : List LogFile) : Prop where
  isSealed : ∀ f ∈ us, J.sealed[f.fileId]? = some f
  isInput : ∀ f ∈ us, f.fileId ∈ J.ids
  nodup : (us.map LogFile.fileId).Nodup

/-- The directory after the rename, with the inputs `us` unlinked. -/
def replaced (J : MergeJob) (d : Disk) (ino : Nat) (us : List LogFile) : Disk :=
  unlinkAll us (d.link J.newId ino)

def replacedHandles (J : MergeJob) (ino : Nat) (us : List LogFile) : ExtTreeMap Nat LogFile :=
  eraseAll us (J.sealed.insert J.newId ⟨J.newId, ino⟩)

section replaced
variable {d : Disk} {ino : Nat} {us : List LogFile}

theorem Ok.newId_unused (h : J.Ok P) : J.sealed[J.newId]? = none := by
  cases hs : J.sealed[J.newId]? with
  | none => rfl
  | some f => exact absurd (h.fresh hs) (Nat.lt_irrefl _)

/-- No live key is in an input any more. -/
theorem Ok.inputs_free (h : J.Ok P) (hus : J.Inputs us) :
    ∀ f ∈ us, ∀ {k : Bytes} {e : IndexEntry}, J.newIndex.get k = some e → e.fileId ≠ f.fileId := by
  intro f hf k e hk heq
  rcases J.moved_or_kept k with ⟨e₀, hk₀, hid₀⟩ | ⟨hout, hkept⟩
  · obtain ⟨new, hat, hnewId, -⟩ := h.moved hk₀ hid₀
    have hnew : some e = some new := hk.symm.trans (congrArg Prod.fst hat)
    cases hnew
    exact Nat.lt_irrefl _ ((hnewId ▸ heq) ▸ h.fresh (hus.isSealed f hf))
  · exact hout e ((congrArg Prod.fst hkept).symm.trans hk) (heq ▸ hus.isInput f hf)

/-- The merged log is in order, however many inputs are unlinked. -/
theorem Ok.filesOk (h : J.Ok P) (hb : J.Built P d ino) (hus : J.Inputs us) :
    FilesOk P (J.replacedHandles ino us) (J.replacedHandles ino us) (J.replaced d ino us)
      J.newIndex := by
  have hnew : (J.sealed.insert J.newId ⟨J.newId, ino⟩)[J.newId]? = some ⟨J.newId, ino⟩ := by simp
  have hother : ∀ {id : Nat} {f : LogFile}, J.sealed[id]? = some f →
      (J.sealed.insert J.newId ⟨J.newId, ino⟩)[id]? = some f := by
    intro id f hf
    have hne : J.newId ≠ id := (Nat.ne_of_lt (h.fresh hf)).symm
    simp [ExtTreeMap.getElem?_insert, hne, hf]
  have hlinked :=
    (h.files.sideStep hb.side.toSideStep).link hb.unused (by rw [hb.bytes]; exact hb.small)
    h.newId_unused
  have hsealed := hlinked.setSealed hnew (by
    change Footed P J.newId (d.inodes ino)
    rw [hb.bytes]
    exact h.footed hb.small)
  have hindexed : FilesOk P _ _ (d.link J.newId ino) J.newIndex := hsealed.setIndex (by
    intro k e hk
    rcases J.moved_or_kept k with ⟨e₀, hk₀, hid₀⟩ | ⟨-, hkept⟩
    · obtain ⟨new, hat, hnewId, -, -, hrec, -⟩ := h.moved hk₀ hid₀
      have heq : some e = some new := hk.symm.trans (congrArg Prod.fst hat)
      cases heq
      have hv : J.newIndex.valsep k = J.index.valsep k := congrArg (fun t => t.2.2) hat
      refine ⟨⟨J.newId, ino⟩, hnewId ▸ hnew, ?_⟩
      change RecAt P (d.inodes ino) k e _
      rw [hb.bytes, hv]
      exact hrec.append _
    · have hk₀ : J.index.get k = some e := (congrArg Prod.fst hkept).symm.trans hk
      have hv : J.newIndex.valsep k = J.index.valsep k := congrArg (fun t => t.2.2) hkept
      rw [hv]
      exact hsealed.resolves hk₀)
  exact hindexed.unlinkAll (fun f hf => hother (hus.isSealed f hf)) hus.nodup (h.inputs_free hus)

/-- A merge changes nothing a reader sees. -/
theorem Ok.view (h : J.Ok P) (hb : J.Built P d ino) (hus : J.Inputs us) (k : Bytes) :
    viewAt (J.replacedHandles ino us) (J.replaced d ino us) J.newIndex k
      = viewAt J.sealed J.disk J.index k := by
  have hinodes : (J.replaced d ino us).inodes = d.inodes := inodes_unlinkAll _ _
  rcases J.moved_or_kept k with ⟨e, hk, hid⟩ | ⟨hout, hkept⟩
  · obtain ⟨new, hat, hnewId, hts, -, hrec, hslice⟩ := h.moved hk hid
    obtain ⟨f, hf, -⟩ := h.files.resolves hk
    have hg : J.newIndex.get k = some new := congrArg Prod.fst hat
    have ht : J.newIndex.ttl k = J.index.ttl k := congrArg (fun t => t.2.1) hat
    have hv : J.newIndex.valsep k = J.index.valsep k := congrArg (fun t => t.2.2) hat
    have hhandle : (J.replacedHandles ino us)[new.fileId]? = some ⟨J.newId, ino⟩ := by
      rw [replacedHandles, getElem?_eraseAll, hnewId, if_neg]
      · simp
      · intro hmem
        obtain ⟨g, hg, hgid⟩ := mem_map.mp hmem
        exact Nat.lt_irrefl _ (hgid ▸ h.fresh (hus.isSealed g hg))
    have hbytes : Bytes.slice ((J.replaced d ino us).inodes ino) new.recordOffset new.recordSize
        = Bytes.slice (J.disk.inodes f.ino) e.recordOffset e.recordSize := by
      rw [hinodes, hb.bytes, file, Bytes.slice_append_left hrec.bound, hslice]
      simp only [recordAt, hf]
    simp only [viewAt, hg, hk, hhandle, hf, ht, hv, hts, Option.map_some, hbytes]
  · have hg : J.newIndex.get k = J.index.get k := congrArg Prod.fst hkept
    have ht : J.newIndex.ttl k = J.index.ttl k := congrArg (fun t => t.2.1) hkept
    have hv : J.newIndex.valsep k = J.index.valsep k := congrArg (fun t => t.2.2) hkept
    cases hk : J.index.get k with
    | none => simp [viewAt, hg, hk]
    | some e =>
      obtain ⟨f, hf, -⟩ := h.files.resolves hk
      have hhandle : (J.replacedHandles ino us)[e.fileId]? = some f := by
        have hne : J.newId ≠ e.fileId := (Nat.ne_of_lt (h.fresh hf)).symm
        rw [replacedHandles, getElem?_eraseAll, if_neg]
        · simp [ExtTreeMap.getElem?_insert, hne, hf]
        · intro hmem
          obtain ⟨g, hgm, hgid⟩ := mem_map.mp hmem
          exact hout e hk (hgid ▸ hus.isInput g hgm)
      have hbytes : (J.replaced d ino us).inodes f.ino = J.disk.inodes f.ino := by
        rw [hinodes, hb.side.inodes (h.files.dir.logs_of_handle hf)]
      simp only [viewAt, hg, hk, hhandle, hf, ht, hv, Option.map_some, hbytes]

theorem data_replaced (id : Nat) :
    (J.replaced d ino us).data[id]?
      = if id ∈ us.map LogFile.fileId then none
        else if id = J.newId then some ino else d.data[id]? := by
  have hgen : ∀ (fs : List LogFile) (d : Disk), (unlinkAll fs d).data[id]?
      = if id ∈ fs.map LogFile.fileId then none else d.data[id]? := by
    intro fs
    induction fs with
    | nil => intro d; simp [unlinkAll]
    | cons f fs ih =>
      intro d
      have hrest := ih (d.unlinkData f.fileId f.ino)
      simp only [unlinkAll, foldl_cons, map_cons, mem_cons] at hrest ⊢
      rw [hrest]
      by_cases hmem : id ∈ fs.map LogFile.fileId
      · simp [hmem]
      · by_cases hid : id = f.fileId
        · simp [hid, Disk.unlinkData]
        · simp [hmem, hid, Disk.unlinkData, ExtTreeMap.getElem?_erase, Ne.symm hid]
  rw [replaced, hgen]
  simp only [Disk.link, ExtTreeMap.getElem?_insert]
  by_cases hid : id = J.newId
  · simp [hid]
  · simp [hid, Ne.symm hid]

section listings
variable {F F' : Nat → Nat → Prop} (hb : J.Built P d ino)
  (hlogs : ∀ {id ino' : Nat}, F id ino' → J.disk.Logs id ino')
  (hold : ∀ {id ino' : Nat}, F' id ino' → F id ino' ∨ (id = J.newId ∧ ino' = ino))
include hb hlogs hold

/-- Footers that list the old index, together with the merged file's, list the new one:
the inputs may be gone or not. -/
theorem Ok.lists (h : J.Ok P) (hlists : Lists P J.disk F none J.index) (hnew : F' J.newId ino)
    (hkeep : ∀ {id ino' : Nat}, F id ino' → id ∉ J.ids → F' id ino') :
    Lists P (J.replaced d ino us) F' none J.newIndex := by
  have hinodes : (J.replaced d ino us).inodes = d.inodes := inodes_unlinkAll _ _
  have hsame : ∀ {id ino' : Nat}, F id ino' → d.inodes ino' = J.disk.inodes ino' :=
    fun hF => hb.side.inodes (hlogs hF)
  constructor
  · intro id ino' hF' fe hfe e hk
    rw [hinodes] at hfe
    rcases hold hF' with hF | ⟨rfl, rfl⟩
    · rw [hsame hF] at hfe
      rcases J.moved_or_kept fe.key with ⟨e₀, hk₀, hid₀⟩ | ⟨-, hkept⟩
      · obtain ⟨new, hat, hnewId, -⟩ := h.moved hk₀ hid₀
        have heq : some e = some new := hk.symm.trans (congrArg Prod.fst hat)
        cases heq
        obtain ⟨f, hf, -⟩ := h.files.resolves hk₀
        have hlt := h.fresh hf
        have hle := hlists.below hF fe hfe hk₀
        exact .inl (by omega)
      · have hk₀ : J.index.get fe.key = some e := (congrArg Prod.fst hkept).symm.trans hk
        have hv : J.newIndex.valsep fe.key = J.index.valsep fe.key :=
          congrArg (fun t => t.2.2) hkept
        refine (hlists.below hF fe hfe hk₀).imp_right fun heq => ⟨heq.1, ?_⟩
        rw [footerEntryOf, hv]
        exact heq.2
    · rw [hb.bytes, h.footerOn hb.small] at hfe
      obtain ⟨new, hget, hnewId, hfe', -⟩ := h.footer_eq hfe
      have heq : some e = some new := hk.symm.trans hget
      cases heq
      refine .inr ⟨hnewId.symm, ?_⟩
      exact hfe'.trans (by rw [footerEntryOf, congrArg FooterEntry.expiresAtMs hfe', footerEntryOf])
  · intro k e hk _
    rcases J.moved_or_kept k with ⟨e₀, hk₀, hid₀⟩ | ⟨hout, hkept⟩
    · obtain ⟨new, hat, hnewId, -, hmem, -⟩ := h.moved hk₀ hid₀
      have heq : some e = some new := hk.symm.trans (congrArg Prod.fst hat)
      cases heq
      have hon : BeyondKv.footerOn P ((J.replaced d ino us).inodes ino) = J.footer := by
        rw [hinodes, hb.bytes, h.footerOn hb.small]
      exact ⟨ino, hnewId ▸ hnew, _, hon ▸ hmem, rfl⟩
    · have hk₀ : J.index.get k = some e := (congrArg Prod.fst hkept).symm.trans hk
      obtain ⟨ino', hF, fe, hfe, hkey⟩ := hlists.lists hk₀ (by simp)
      refine ⟨ino', hkeep hF (hout e hk₀), fe, ?_, hkey⟩
      rw [hinodes, hsame hF]
      exact hfe

end listings

end replaced

end MergeJob

end BeyondKv
